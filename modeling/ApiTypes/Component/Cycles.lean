import ApiTypes.Component.Basic
import ApiTypes.TypeExpr.References

/-!
# Cycles of components

Components that refer to each other, directly or through others, form a group. `Component.groups`
lists the groups so that each one refers only to itself and to groups before it. They are found in one
search (Tarjan's algorithm): keys are met depth first and stay on a stack until all keys of their
group are met.
-/

namespace ApiTypes

/-! ## The search -/

/-- Keys are numbered as they are met. `low` has the least number of a key on the stack that a key is
known to reach. A key that is met and in no group yet is on the stack, the last one first. -/
structure Search (κ : Type) where
  index : Table κ Nat
  low : Table κ Nat
  stack : List κ
  onStack : List κ
  groups : List (List κ)

namespace Search

variable {κ : Type} [BEq κ]

def start : Search κ := ⟨[], [], [], [], []⟩

def number (s : Search κ) (k : κ) : Nat := (s.index.get? k).getD 0

def lowest (s : Search κ) (k : κ) : Nat := (s.low.get? k).getD 0

def enter (s : Search κ) (k : κ) : Search κ :=
  { s with
    index := s.index.put k s.index.length
    low := s.low.put k s.index.length
    stack := k :: s.stack
    onStack := k :: s.onStack }

def lower (s : Search κ) (k : κ) (n : Nat) : Search κ :=
  { s with low := s.low.put k (min (s.lowest k) n) }

def follow (visit : Search κ → κ → Search κ) (k : κ) (s : Search κ) (j : κ) : Search κ :=
  if !s.index.has j then
    let s := visit s j
    s.lower k (s.lowest j)
  else if s.onStack.contains j then s.lower k (s.number j)
  else s

def popTo (k : κ) : List κ → List κ × List κ
  | [] => ([], [])
  | j :: js =>
    if j == k then ([j], js)
    else
      let (members, rest) := popTo k js
      (j :: members, rest)

/-- Takes the group of a key off the stack, where the key is the first one met of its group. The members
stand in the order of the names. -/
def close (names : List κ) (s : Search κ) (k : κ) : Search κ :=
  let (members, rest) := popTo k s.stack
  { s with
    stack := rest
    onStack := s.onStack.filter fun j => !members.contains j
    groups := s.groups ++ [names.filter members.contains] }

/-- Visits a key and all that is reached from it. A search is never deeper than there are names. -/
def visit (names : List κ) (references : κ → List κ) : Nat → Search κ → κ → Search κ
  | 0, s, _ => s
  | depth + 1, s, k =>
    let s := (references k).foldl (follow (visit names references depth) k) (s.enter k)
    if s.lowest k == s.number k then s.close names k else s

def run (names : List κ) (references : κ → List κ) : Search κ :=
  names.foldl (fun s k => if s.index.has k then s else visit names references names.length s k) start

end Search

namespace Component

/-- Each name once, at its first place and with its last type. -/
def distinct (cs : List Component) : List Component :=
  (Table.ofList (cs.map fun c => (c.name, c))).map (·.2)

def named? (cs : List Component) (name : String) : Option Component :=
  cs.find? fun c => c.name == name

def referencesFrom (cs : List Component) (name : String) : List String :=
  match named? cs name with
  | some c =>
    let mentioned := c.type.references
    (cs.map (·.name)).filter mentioned.contains
  | none => []

/-- Groups of components that refer to each other; the members of a group stay in the order of the
list. -/
def groups (cs : List Component) : List (List Component) :=
  let cs := distinct cs
  (Search.run (cs.map (·.name)) (referencesFrom cs)).groups.map (·.filterMap (named? cs))

end Component

end ApiTypes
