import MatrixCalc.Fault
import MatrixCalc.Token.Basic

/-!
# From text to tokens

Words, digit runs and spacing are taken as long as they go. The first character that begins no token
is a fault. Every character of a token is one byte, so its length in characters is its length in
bytes.
-/

namespace MatrixCalc

namespace Token

/-- A token cut off the front of a text: how many characters it has and what follows it. -/
structure Cut where
  token : Token
  width : Nat
  rest : List Char

/-- The longest run of a class that begins with a given character. -/
def cutRun (make : String → Token) (inClass : Char → Bool) (c : Char) (cs : List Char) : Cut :=
  let tail := cs.takeWhile inClass
  ⟨make (String.ofList (c :: tail)), tail.length + 1, cs.dropWhile inClass⟩

/-- The token that begins with a given character, if any does. -/
def cut? (c : Char) (cs : List Char) : Option Cut :=
  if isLetter c then some (cutRun word isLetter c cs)
  else if isNumeric c then some (cutRun digits isNumeric c cs)
  else if isSpacing c then some (cutRun (fun _ => space) isSpacing c cs)
  else (ofMark? c).map fun t => ⟨t, 1, cs⟩

theorem length_dropWhile_le (p : Char → Bool) (cs : List Char) :
    (cs.dropWhile p).length ≤ cs.length :=
  (List.dropWhile_sublist p).length_le

/-- What follows a token is no longer than what followed its first character. -/
theorem length_rest_le {c : Char} {cs : List Char} {t : Cut} (h : cut? c cs = some t) :
    t.rest.length ≤ cs.length := by
  unfold cut? at h
  split at h
  · cases h; exact length_dropWhile_le _ _
  split at h
  · cases h; exact length_dropWhile_le _ _
  split at h
  · cases h; exact length_dropWhile_le _ _
  · obtain ⟨_, _, rfl⟩ := Option.map_eq_some_iff.1 h
    exact Nat.le_refl _

/-- The tokens of a text that begins at a column. -/
def lexFrom (column : Nat) : List Char → Except TextFault (List Placed)
  | [] => .ok []
  | c :: cs =>
    match _h : cut? c cs with
    | none => .error ⟨.invalidCharacter (String.singleton c), column⟩
    | some t =>
      match lexFrom (column + t.width) t.rest with
      | .error f => .error f
      | .ok ts => .ok (⟨t.token, column⟩ :: ts)
termination_by cs => cs.length
decreasing_by exact Nat.lt_succ_of_le (length_rest_le _h)

def lex (source : String) : Except TextFault (List Placed) := lexFrom 0 source.toList

/-- A sign is a token of its own, and columns count bytes from zero. -/
example : (lex "ref[1.5 -2]").toOption =
    some [⟨.word "ref", 0⟩, ⟨.literalStart, 3⟩, ⟨.digits "1.5", 4⟩, ⟨.space, 7⟩, ⟨.minus, 8⟩,
      ⟨.digits "2", 9⟩, ⟨.literalEnd, 10⟩] := by decide +kernel

end Token

end MatrixCalc
