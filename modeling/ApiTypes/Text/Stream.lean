/-!
# Text on a stream

Text that goes to a stream and not to a terminal: `withoutControls` leaves out the sequences that speak
to a terminal. A text without an escape stays as it is.
-/

namespace ApiTypes.Text

/-! ## Control sequences -/

/-- The length of the control sequence at the front of a text: an escape and a bracket, parameters,
intermediate characters, and one final character. -/
def controlLength? : List Char → Option Nat
  | '\x1b' :: '[' :: cs =>
    let parameters := cs.takeWhile fun c => '0' ≤ c && c ≤ '?'
    let cs := cs.drop parameters.length
    let intermediates := cs.takeWhile fun c => ' ' ≤ c && c ≤ '/'
    match cs.drop intermediates.length with
    | c :: _ =>
      if '@' ≤ c && c ≤ '~' then some (parameters.length + intermediates.length + 3) else none
    | [] => none
  | _ => none

/-- Leaves out `skip` characters and, from there on, the control sequences. What has been kept comes
first, the last character at its front. -/
def dropControls (kept : List Char) : Nat → List Char → List Char
  | _, [] => kept.reverse
  | skip + 1, _ :: cs => dropControls kept skip cs
  | 0, c :: cs =>
    match controlLength? (c :: cs) with
    | some n => dropControls kept (n - 1) cs
    | none => dropControls (c :: kept) 0 cs

def withoutControls (s : String) : String := String.ofList (dropControls [] 0 s.toList)

end ApiTypes.Text
