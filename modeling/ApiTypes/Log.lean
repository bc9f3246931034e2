import ApiTypes.Document

/-!
# Log

Computations that also say what they came across. `Logged α` is a value with the notices given on
the way to it, in order. A notice holds what it speaks of, and its text is made only where it is
read.
-/

namespace ApiTypes

inductive Level
  | debug
  | info
  | warning
  deriving Repr, DecidableEq

def Level.name : Level → String
  | .debug => "DEBUG"
  | .info => "INFO"
  | .warning => "WARNING"

inductive Topic
  | schemas
  | operations
  | module
  deriving Repr, DecidableEq

def Topic.name : Topic → String
  | .schemas => "parser.schema"
  | .operations => "parser.operations"
  | .module => "generator.document"

/-! ## Notices -/

inductive Notice
  | unopened (depth : Int) (kind : Document)
  | componentClash (key : Scalar) (name : String)
  | skipped (label : String)
  | idClash (id label holder : String)
  | nameless (parameter : Document)
  | rendering (components operations : Nat)

namespace Notice

def level : Notice → Level
  | unopened .. | skipped _ | nameless _ => .debug
  | rendering .. => .info
  | componentClash .. | idClash .. => .warning

def topic : Notice → Topic
  | unopened .. | componentClash .. => .schemas
  | skipped _ | idClash .. | nameless _ => .operations
  | rendering .. => .module

def text : Notice → String
  | unopened depth kind =>
    "Recursion guard hit at depth " ++ toString depth ++ ", falling back to " ++ kind.inspect
  | componentClash key name =>
    "Component " ++ key.inspect ++ " collides with an earlier component named " ++
      inspectText name ++ "; skipping it"
  | skipped label => "Skipping " ++ label ++ ": no operationId"
  | idClash id label holder =>
    "Operation id " ++ inspectText id ++ " of " ++ label ++ " already used by " ++ holder ++
      "; the later operation wins"
  | nameless parameter => "Ignoring parameter without a name: " ++ parameter.inspect
  | rendering components operations =>
    "Rendering " ++ toString components ++ " components and " ++ toString operations ++
      " operations"

def fault? : Notice → Option WriteFault
  | unopened _ kind => kind.fault?
  | componentClash key _ => key.fault?
  | nameless parameter => parameter.fault?
  | skipped _ | idClash .. | rendering .. => none

end Notice

/-! ## Logged values -/

structure Logged (α : Type) where
  value : α
  log : List Notice

namespace Logged

instance : Monad Logged where
  pure a := ⟨a, []⟩
  bind x f := ⟨(f x.value).value, x.log ++ (f x.value).log⟩

instance : LawfulMonad Logged := LawfulMonad.mk' _
  (fun x => by
    show Logged.mk x.value (x.log ++ []) = x
    rw [List.append_nil])
  (fun _ _ => rfl)
  (fun _ _ _ => by simp [bind, List.append_assoc])

@[simp] theorem pure_value {α} (a : α) : (pure a : Logged α).value = a := rfl

@[simp] theorem pure_log {α} (a : α) : (pure a : Logged α).log = [] := rfl

@[simp] theorem bind_value {α β} (x : Logged α) (f : α → Logged β) :
    (x >>= f).value = (f x.value).value := rfl

@[simp] theorem bind_log {α β} (x : Logged α) (f : α → Logged β) :
    (x >>= f).log = x.log ++ (f x.value).log := rfl

@[simp] theorem map_value {α β} (f : α → β) (x : Logged α) : (f <$> x).value = f x.value := rfl

@[simp] theorem map_log {α β} (f : α → β) (x : Logged α) : (f <$> x).log = x.log := by
  show x.log ++ [] = x.log
  simp

def tell (n : Notice) : Logged Unit := ⟨(), [n]⟩

end Logged

end ApiTypes
