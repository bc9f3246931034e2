import ApiTypes.Value.Basic

/-!
# The order of sets

Members of a set are listed by the slots they stand in. A number has a residue, the same for equal
numbers of all kinds, and stands in the slot of its residue or in a free one behind. Members that
are no numbers are listed by kind and value.
-/

namespace ApiTypes

/-! ## Residues -/

def residueBits : Nat := 61

/-- A prime, modulo which the powers of two repeat after as many as it has bits. -/
def residuePrime : Nat := Nat.pow 2 residueBits - 1

def Decimal.Binary.residue (b : Decimal.Binary) : Nat :=
  b.significand * Nat.pow 2 (b.exponent % residueBits).toNat % residuePrime

/-- A residue with a sign as a word of 64 bits; the word of minus one is not used. -/
def signedWord (negative : Bool) (residue : Nat) : Nat :=
  if !negative || residue = 0 then residue else Nat.pow 2 64 - max 2 residue

def infinityResidue : Nat := 314159

def Scalar.word? : Scalar → Option Nat
  | bool b => some (if b then 1 else 0)
  | int n => some (signedWord (n < 0) (n.natAbs % residuePrime))
  | float x =>
    let residue := if x.isInf then infinityResidue else (Decimal.Binary.ofFloat x).residue
    some (signedWord (x < 0) residue)
  | _ => none

/-! ## Slots -/

/-- The slots for so many members: a power of two, more than half of them free. -/
def slotCount (members : Nat) : Nat := if members ≤ 4 then 8 else Nat.pow 2 ((2 * members).log2 + 1)

def slotRun : Nat := 9

/-- The first free slot from `start` on. Where a run of slots is taken, the next one starts at a
place that depends on ever fewer bits of the word. -/
def freeSlot (slots : Array (Option Scalar)) : Nat → Nat → Nat → Nat
  | 0, start, _ => start
  | tries + 1, start, word =>
    let length := if start + slotRun < slots.size then slotRun + 1 else 1
    match (List.range length).find? fun n => (slots.getD (start + n) none).isNone with
    | some n => start + n
    | none => freeSlot slots tries ((5 * start + 1 + word / 32) % slots.size) (word / 32)

/-- Puts a number into its slot. After as many tries as a word has bits, every slot is reached. -/
def fillSlot (slots : Array (Option Scalar)) (s : Scalar) (word : Nat) : Array (Option Scalar) :=
  slots.setIfInBounds (freeSlot slots (slots.size + 64) (word % slots.size) word) (some s)

def Scalar.listed (members : List Scalar) : List Scalar :=
  match members.mapM word? with
  | none => members.mergeSort precedes
  | some words =>
    ((members.zip words).foldl (fun slots (s, word) => fillSlot slots s word)
      (Array.replicate (slotCount members.length) none)).toList.filterMap id

end ApiTypes
