/-
  Documents: the trees of values that configuration files and exports hold.

  A record lists its fields in order; no two fields of a record that is read or written by
  this library have the same name.
-/

namespace ArchScript

/-- A value of a configuration file or an export. -/
inductive Document where
  | null
  | boolean (b : Bool)
  | integer (n : Int)
  | text (s : String)
  | list (items : List Document)
  | record (fields : List (String × Document))
deriving BEq, Inhabited

namespace Document

def isNull : Document → Bool
  | null => true
  | _ => false

/-- Whether this is the record without fields. -/
def isEmptyRecord : Document → Bool
  | record [] => true
  | _ => false

end Document

end ArchScript
