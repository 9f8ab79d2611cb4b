/-
# TOML values

The values of the `toml` crate.  A table is the list of its entries in their
order; a float is its bit pattern and a date its text, since nothing here
computes with either.
-/

import Mathlib.Data.List.Basic

namespace Mise

/-- `toml::Value`. -/
inductive TomlValue where
  | string (s : String)
  | integer (i : Int)
  | float (bits : UInt64)
  | boolean (b : Bool)
  | datetime (text : String)
  | array (items : List TomlValue)
  | table (entries : List (String × TomlValue))

/-- `toml::Table`. -/
abbrev TomlTable := List (String × TomlValue)

namespace TomlValue

/-- `Value::as_table`. -/
def asTable : TomlValue → Option TomlTable
  | table entries => some entries
  | _ => none

/-- `Value::as_str`. -/
def asStr : TomlValue → Option String
  | string s => some s
  | _ => none

/-- `Value::get` with a key, which only tables have. -/
def get (v : TomlValue) (key : String) : Option TomlValue :=
  v.asTable.bind (List.lookup key)

end TomlValue

end Mise
