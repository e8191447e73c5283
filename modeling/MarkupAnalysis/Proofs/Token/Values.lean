import Mathlib.Data.List.Infix
import MarkupAnalysis.Proofs.Token.Spelling
import MarkupAnalysis.Text.Quotes

/-! # How values are written

The value of an attribute is written without quotes, in quotes, or with a quote that is never closed. There
is no other quote of the same kind in it, so its first and its last character tell which of the three it is.

* **`Text.WritesValue`** — the three ways of writing a value.
* **`readAttributeValue_writesValue`**, **`Tokenizer.writesValue`** — every value is written in one of them.
* **`Text.IsUnclosed`**, **`Text.WritesValue.not_mem_stripQuotes`** — what is left without the quotes. -/

namespace MarkupAnalysis

open Text

/-- **How a value is written**, with what follows it. -/
inductive Text.WritesValue (rest : Text) : Text → Prop
  /-- Without quotes. -/
  | bare {value : Text} (some_char : value ≠ []) (no_quote : ∀ c ∈ value, isQuote c = false) :
      WritesValue rest value
  /-- In quotes. -/
  | quoted {quote : Char} {content : Text} (quotes : isQuote quote = true) (absent : quote ∉ content) :
      WritesValue rest (quote :: (content ++ [quote]))
  /-- With a quote that the end of the text leaves open. -/
  | unclosed {quote : Char} {content : Text} (quotes : isQuote quote = true) (absent : quote ∉ content)
      (ended : rest = []) : WritesValue rest (quote :: content)

/-! ## Readings -/

section readings

variable {v : Vocabulary} {pseudoClose : Bool} {memory : TagMemory} {t : Text}

/-- Where a start tag goes on no value comes. -/
theorem kind_readStartTag_ne_attributeValue (v : Vocabulary) (pseudoClose : Bool) (memory : TagMemory)
    (t : Text) : (readStartTag v pseudoClose memory t).kind ≠ .attributeValue := by
  unfold readStartTag closeStartTag
  dsimp only
  generalize (if memory.blankBefore then lengthWhile isAttributeNameChar t else 0) = name
  split_ifs <;> exact nofun

/-- A quoted value goes up to the next quote of its kind. -/
theorem readQuotedValue_writesValue {quote : Char} (quotes : isQuote quote = true) (t : Text) :
    WritesValue ((quote :: t).drop (readQuotedValue memory quote t).length)
      ((quote :: t).take (readQuotedValue memory quote t).length) := by
  have absent : quote ∉ t.take (lengthUntil (startsWith [quote]) t) := by
    have absent := not_infix_take_lengthUntil (List.cons_ne_nil quote []) t
    rwa [List.singleton_infix_iff] at absent
  unfold readQuotedValue
  dsimp only
  split
  next open_ended =>
    exact .unclosed quotes absent (List.isEmpty_iff.mp open_ended)
  next closed =>
    rw [List.isEmpty_iff] at closed
    have here : startsWith [quote] (t.drop (lengthUntil (startsWith [quote]) t)) = true :=
      (lengthUntil_stops _ t).resolve_left closed
    obtain ⟨rest, split⟩ := List.isPrefixOf_iff_prefix.mp here
    have taken : t.take (lengthUntil (startsWith [quote]) t + 1) =
        t.take (lengthUntil (startsWith [quote]) t) ++ [quote] := by
      rw [List.take_add, ← split]
      rfl
    dsimp only
    rw [List.take_succ_cons, taken]
    exact .quoted quotes absent

/-- No quote stands in a value without quotes. -/
theorem isQuote_of_mem_bare {c : Char} (mem : c ∈ t.take (unquotedValueLength t)) : isQuote c = false := by
  have shorter : unquotedValueLength t ≤ lengthWhile isUnquotedValueChar t := by
    unfold unquotedValueLength
    dsimp only
    split <;> omega
  have accepted := accepts_of_mem_take ((List.take_subset_take_left t shorter) mem)
  by_contra quotes
  simp only [isQuote, Bool.not_eq_false, Bool.or_eq_true, decide_eq_true_eq] at quotes
  rcases quotes with rfl | rfl <;> revert accepted <;> decide

/-- **Every value that is read** is written in one of the three ways. -/
theorem readAttributeValue_writesValue
    (kind : (readAttributeValue v pseudoClose memory t).kind = .attributeValue) :
    WritesValue (t.drop (readAttributeValue v pseudoClose memory t).length)
      (t.take (readAttributeValue v pseudoClose memory t).length) := by
  unfold readAttributeValue at kind ⊢
  dsimp only at kind ⊢
  split_ifs at kind ⊢ with blanks run value
  · refine .bare (fun empty => ?_) fun c => isQuote_of_mem_bare
    have size := lengthWhile_le isUnquotedValueChar t
    rcases List.take_eq_nil_iff.mp empty with nothing | rfl
    · exact Nat.ne_of_gt value nothing
    · exact absurd run (by decide)
  · exact absurd kind (kind_readStartTag_ne_attributeValue _ _ _ _)
  · revert kind
    split
    · exact fun _ => readQuotedValue_writesValue rfl _
    · exact fun _ => readQuotedValue_writesValue rfl _
    · exact fun kind => absurd kind (kind_readStartTag_ne_attributeValue _ _ _ _)

end readings

/-! ## Tokens -/

/-- **The value of an attribute** is written in one of the three ways. -/
theorem Tokenizer.writesValue {s : Tokenizer} (h : s.token.kind = .attributeValue) :
    WritesValue s.rest.ahead s.token.text := by
  have some_ahead := ahead_ne_nil h (by decide)
  have reading : s.reading = readAttributeValue s.vocabulary s.pseudoClose s.memory s.ahead := by
    rw [reading_eq some_ahead, mode_of_attributeValue h]
    rfl
  have kind : s.reading.kind = .attributeValue := h
  show WritesValue (s.ahead.drop s.reading.length) (s.ahead.take s.reading.length)
  rw [reading] at kind ⊢
  exact readAttributeValue_writesValue kind

/-! ## Without the quotes -/

/-- **A value whose quote is never closed**: there is no other quote of its kind in it. -/
def Text.IsUnclosed : Text → Prop
  | [] => False
  | quote :: content => isQuote quote = true ∧ quote ∉ content

namespace Text.WritesValue

variable {rest value : Text}

/-- Nothing follows such a value. -/
theorem ended (h : WritesValue rest value) (unclosed : value.IsUnclosed) : rest = [] := by
  cases h with
  | bare some_char no_quote =>
    obtain ⟨c, value, rfl⟩ := List.exists_cons_of_ne_nil some_char
    exact absurd ((no_quote c List.mem_cons_self).symm.trans unclosed.1) Bool.false_ne_true
  | quoted _ _ => exact absurd (by simp) unclosed.2
  | unclosed _ _ ended => exact ended

/-- **Without its quotes** a value has no quote of their kind. -/
theorem not_mem_stripQuotes (h : WritesValue rest value) {quote : Char} (quotes : isQuote quote = true)
    (opens : value.head? = some quote) : quote ∉ value.stripQuotes := by
  cases h with
  | bare some_char no_quote =>
    exact absurd ((no_quote quote (List.mem_of_head? opens)).symm.trans quotes) Bool.false_ne_true
  | quoted _ absent =>
    obtain rfl := Option.some.inj opens
    rwa [stripQuotes, if_pos quotes, withoutLast, List.getLast?_concat, if_pos rfl, List.dropLast_concat]
  | @unclosed first content _ absent =>
    obtain rfl := Option.some.inj opens
    obtain ⟨tail, split⟩ := withoutLast_prefix first content
    rw [stripQuotes, if_pos quotes]
    intro mem
    exact absent (split ▸ List.mem_append_left tail mem)

end Text.WritesValue

end MarkupAnalysis
