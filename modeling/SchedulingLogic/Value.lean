/-!
# Values

What an expression evaluates to: a 64-bit integer or a truth value.
-/

namespace SchedulingLogic

def decimal (n : Int64) : String := n.toInt.repr

inductive Value where
  | int (value : Int64)
  | bool (value : Bool)
  deriving DecidableEq

namespace Value

def typeName : Value → String
  | int _ => "integer"
  | bool _ => "boolean"

def int? : Value → Option Int64
  | int n => some n
  | bool _ => none

def bool? : Value → Option Bool
  | int _ => none
  | bool b => some b

def text : Value → String
  | int n => decimal n
  | bool true => "true"
  | bool false => "false"

end Value

end SchedulingLogic
