/-! # Text and its byte offsets

A text is its list of characters. Every offset that the library takes or answers counts bytes of the
text's UTF-8 encoding, so an offset may also point *inside* a character or past the end.

* **`Text.byteLength`** — the number of bytes of a text.
* **`Text.dropBytes?`**, **`Text.takeBytes?`** — the two parts of a text at an offset; there is none
  when the offset is no character boundary.
* **`Text.isBoundary`** — whether an offset is a character boundary (both ends are).
* **`Text.startsWith`**, **`Text.lengthUntil`** — looking for a literal ahead.
* **`Text.lower`**, **`Text.equalsIgnoringCase`** — the ASCII case rule; all other characters stand for
  themselves. -/

namespace MarkupAnalysis

/-- Text is the list of its characters. -/
abbrev Text := List Char

namespace Text

/-! ## Offsets -/

/-- The number of bytes of the text's UTF-8 encoding. -/
def byteLength : Text → Nat
  | [] => 0
  | c :: cs => c.utf8Size + byteLength cs

@[simp] theorem byteLength_nil : byteLength [] = 0 := rfl

@[simp] theorem byteLength_cons (c : Char) (cs : Text) :
    byteLength (c :: cs) = c.utf8Size + byteLength cs := rfl

/-- Bytes add up over concatenation. -/
@[simp] theorem byteLength_append (s t : Text) :
    byteLength (s ++ t) = byteLength s + byteLength t := by
  induction s with
  | nil => simp
  | cons c cs ih => simp [ih, Nat.add_assoc]

/-- The text from byte `offset` on; none when `offset` is past the end or inside a character. -/
def dropBytes? : Text → Nat → Option Text
  | cs, 0 => some cs
  | [], _ + 1 => none
  | c :: cs, n + 1 => if c.utf8Size ≤ n + 1 then dropBytes? cs (n + 1 - c.utf8Size) else none

/-- The text before byte `offset`; none when `offset` is past the end or inside a character. -/
def takeBytes? : Text → Nat → Option Text
  | _, 0 => some []
  | [], _ + 1 => none
  | c :: cs, n + 1 =>
    if c.utf8Size ≤ n + 1 then (takeBytes? cs (n + 1 - c.utf8Size)).map (c :: ·) else none

/-- Whether `offset` is a character boundary of the text; both of its ends are. -/
def isBoundary (t : Text) (offset : Nat) : Bool := (t.dropBytes? offset).isSome

/-- The byte length of a first part is a boundary, and what follows it is the second part. -/
@[simp] theorem dropBytes?_append (s t : Text) : dropBytes? (s ++ t) (byteLength s) = some t := by
  induction s with
  | nil => simp [dropBytes?]
  | cons c cs ih =>
    have positive := c.utf8Size_pos
    obtain ⟨k, hk⟩ : ∃ k, c.utf8Size + byteLength cs = k + 1 := ⟨_, (Nat.succ_pred (by omega)).symm⟩
    have fits : c.utf8Size ≤ k + 1 := by omega
    have rest : k + 1 - c.utf8Size = byteLength cs := by omega
    simp [hk, dropBytes?, fits, rest, ih]

/-- The byte length of a first part is a boundary, and what stands before it is that part. -/
@[simp] theorem takeBytes?_append (s t : Text) : takeBytes? (s ++ t) (byteLength s) = some s := by
  induction s with
  | nil => simp [takeBytes?]
  | cons c cs ih =>
    have positive := c.utf8Size_pos
    obtain ⟨k, hk⟩ : ∃ k, c.utf8Size + byteLength cs = k + 1 := ⟨_, (Nat.succ_pred (by omega)).symm⟩
    have fits : c.utf8Size ≤ k + 1 := by omega
    have rest : k + 1 - c.utf8Size = byteLength cs := by omega
    simp [hk, takeBytes?, fits, rest, ih]

/-! ## Looking ahead -/

/-- Whether the text starts with `literal`. -/
def startsWith (literal : Text) (t : Text) : Bool := literal.isPrefixOf t

/-- The number of characters before the first place from which `found` holds of the remaining text;
all of them when there is no such place. -/
def lengthUntil (found : Text → Bool) : Text → Nat
  | [] => 0
  | c :: cs => if found (c :: cs) then 0 else lengthUntil found cs + 1

/-- The number of leading characters that `accepts` holds of. -/
def lengthWhile (accepts : Char → Bool) (t : Text) : Nat := (t.takeWhile accepts).length

/-- What follows `literal` at the start of the text; none when the text starts otherwise. -/
def after? : (literal : Text) → Text → Option Text
  | [], t => some t
  | _ :: _, [] => none
  | l :: ls, c :: cs => if l = c then after? ls cs else none

/-- The text before the first occurrence of `literal` and the text after it. -/
def cut? (literal : Text) (t : Text) : Option (Text × Text) :=
  let before := lengthUntil (startsWith literal) t
  (after? literal (t.drop before)).map fun rest => (t.take before, rest)

/-! ## ASCII case -/

/-- The text with the letters `A` to `Z` in lower case. -/
def lower (t : Text) : Text := t.map Char.toLower

/-- Equality up to the case of ASCII letters. -/
def equalsIgnoringCase (s t : Text) : Bool := lower s == lower t

/-- Whether the text starts with `literal`, up to the case of ASCII letters. -/
def startsWithIgnoringCase (literal : Text) (t : Text) : Bool :=
  (lower literal).isPrefixOf (lower (t.take literal.length))

@[simp] theorem length_lower (t : Text) : (lower t).length = t.length := by simp [lower]

@[simp] theorem equalsIgnoringCase_self (t : Text) : equalsIgnoringCase t t = true := by
  simp [equalsIgnoringCase]

/-- The case rule does not mind which text comes first. -/
theorem equalsIgnoringCase_comm (s t : Text) : equalsIgnoringCase s t = equalsIgnoringCase t s := by
  simp only [equalsIgnoringCase]
  exact Bool.beq_comm

end Text

end MarkupAnalysis
