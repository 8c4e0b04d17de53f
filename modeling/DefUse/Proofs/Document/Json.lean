import DefUse.Document.Json
import DefUse.Document.JsonReader
import DefUse.Proofs.Document.Basic
import Mathlib.Data.List.TakeDrop
import Mathlib.Data.List.TakeWhile

/-!
# Documents read back from text

**Method.** A reader is run on what was written for a part, followed by anything that may follow
the part: a comma or a new line.  Characters, texts and numbers are read back by their own readers;
one lemma about sequences serves lists and records; a document is an induction on its parts.

**Results.**
* `quoted?_quoted`: texts with any characters come back.
* `number?_toString`: integers of 64 bits come back.
* `value?_renderAt` and `parse_render`: documents come back.
-/

namespace DefUse

namespace Text

theorem isHex_hexDigit :
    ∀ n < 16, isHex (hexDigit n) = true := by
  decide

theorem hexDigitValue_hexDigit :
    ∀ n < 16, hexDigitValue (hexDigit n) = n := by
  decide

theorem all_isHex_hexDigits
    (width n : Nat) :
    (hexDigits width n).all isHex = true := by
  induction width generalizing n with
  | zero => rfl
  | succ width ih =>
      rw [hexDigits, List.all_append, ih, Bool.true_and, List.all_cons, List.all_nil,
        Bool.and_true]
      exact isHex_hexDigit _ (Nat.mod_lt n (by decide))

/-- Hexadecimal digits write a number that has no more of them. -/
theorem hexValue_hexDigits
    {width n : Nat}
    (hn : n < Nat.pow 16 width) :
    hexValue (hexDigits width n) = n := by
  induction width generalizing n with
  | zero =>
      have hzero : n = 0 := by simpa using hn
      rw [hzero]
      rfl
  | succ width ih =>
      have hrest : n / 16 < Nat.pow 16 width := by
        have hpow : Nat.pow 16 (width + 1) = 16 * Nat.pow 16 width := Nat.pow_succ'
        exact Nat.div_lt_of_lt_mul (hpow ▸ hn)
      have hvalue := ih hrest
      unfold hexValue at hvalue ⊢
      rw [hexDigits, List.foldl_append, hvalue, List.foldl_cons, List.foldl_nil,
        hexDigitValue_hexDigit _ (Nat.mod_lt n (by decide)), Nat.div_add_mod]

end Text

namespace Doc
namespace Json

section Characters

variable {c : Char} {rest : List Char}

/-- Four digits are read as the number that they were written for. -/
theorem unit?_hexDigits
    {n : Nat}
    (hn : n < 0x10000) :
    unit? (Text.hexDigits 4 n ++ rest) = some (n, rest) := by
  have hall := Text.all_isHex_hexDigits 4 n
  have hvalue := @Text.hexValue_hexDigits 4 n hn
  obtain ⟨a, b, c, d, hdigits⟩ : ∃ a b c d, Text.hexDigits 4 n = [a, b, c, d] := ⟨_, _, _, _, rfl⟩
  rw [hdigits] at hall hvalue ⊢
  exact (if_pos hall).trans (by rw [hvalue]; rfl)

/-- A character that was written by its number is read back; it is none of those written as two. -/
theorem numbered?_hexDigits
    (hc : c.toNat < 0xd800) :
    numbered? (Text.hexDigits 4 c.toNat ++ rest) = some (c, rest) := by
  have hlow : ¬ 0xd800 ≤ c.toNat := by omega
  rw [numbered?, unit?_hexDigits (by omega)]
  simp only [hlow, decide_false, Bool.false_and, Bool.false_eq_true, if_false, Char.ofNat_toNat]

/-- The characters that are written by a letter, each with its letter. -/
theorem shortUnescapes_of_shortEscapes :
    ∀ entry ∈ shortEscapes, entry.2 ≠ 'u' ∧ shortUnescapes.lookup entry.2 = some entry.1 := by
  decide

/-- The guarded characters need no more than four digits. -/
theorem guarded_low :
    ∀ c ∈ guarded, c.toNat < 0xd800 := by
  simp [guarded]

/-- What a character is written as between quotes. -/
theorem escapeChar_cases
    (c : Char) :
    (∃ letter, escapeChar c = ['\\', letter] ∧ letter ≠ 'u' ∧
      shortUnescapes.lookup letter = some c) ∨
    (escapeChar c = '\\' :: 'u' :: Text.hexDigits 4 c.toNat ∧ c.toNat < 0xd800) ∨
    (escapeChar c = [c] ∧ c ≠ '\\' ∧ c ≠ '"' ∧ ¬ c.toNat < 0x20) := by
  unfold escapeChar
  split
  · rename_i letter hletter
    obtain ⟨front, back, hmem, -⟩ := List.lookup_eq_some_iff.mp hletter
    obtain ⟨hu, hback⟩ := shortUnescapes_of_shortEscapes (c, letter) (by rw [hmem]; simp)
    exact Or.inl ⟨letter, rfl, hu, hback⟩
  · rename_i hnone
    split
    · rename_i hnumber
      refine Or.inr (Or.inl ⟨rfl, ?_⟩)
      rw [Bool.or_eq_true, decide_eq_true_eq, List.contains_iff_mem] at hnumber
      rcases hnumber with hcontrol | hguarded
      · omega
      · exact guarded_low c hguarded
    · rename_i hplain
      rw [Bool.or_eq_true, decide_eq_true_eq, not_or] at hplain
      refine Or.inr (Or.inr ⟨rfl, ?_, ?_, hplain.1⟩)
      · rintro rfl
        exact absurd hnone (by decide)
      · rintro rfl
        exact absurd hnone (by decide)

/-- A printable character stands for itself. -/
theorem character?_of_plain
    (hslash : c ≠ '\\')
    (hprint : ¬ c.toNat < 0x20) :
    character? (c :: rest) = some (c, rest) := by
  unfold character?
  split
  · rename_i heq
    exact absurd heq (List.cons_ne_nil _ _)
  · rename_i heq
    exact absurd (List.cons.inj heq).1 hslash
  · rename_i heq
    exact absurd (List.cons.inj heq).1 hslash
  · rename_i heq
    obtain ⟨rfl, rfl⟩ := List.cons.inj heq
    simp only [hslash, hprint, decide_false, Bool.or_self, Bool.false_eq_true, if_false]

/-- Every character is read back, however it was written. -/
theorem character?_escapeChar :
    character? (escapeChar c ++ rest) = some (c, rest) := by
  rcases escapeChar_cases c with ⟨letter, hc, hu, hback⟩ | ⟨hc, hlow⟩ | ⟨hc, hslash, -, hprint⟩
  · rw [hc, List.cons_append, List.singleton_append, character?, hback]
    · rfl
    · exact hu
  · rw [hc, List.cons_append, List.cons_append, character?]
    exact numbered?_hexDigits hlow
  · rw [hc, List.singleton_append, character?_of_plain hslash hprint]

/-- No written character begins with the mark of the end. -/
theorem escapeChar_eq_cons
    (c : Char) :
    ∃ first more, escapeChar c = first :: more ∧ first ≠ '"' := by
  rcases escapeChar_cases c with ⟨letter, hc, -, -⟩ | ⟨hc, -⟩ | ⟨hc, -, hquote, -⟩
  · exact ⟨_, _, hc, by decide⟩
  · exact ⟨_, _, hc, by decide⟩
  · exact ⟨_, _, hc, hquote⟩

/-- A quoted text is read back up to its closing quote. -/
theorem characters_flatMap
    {cs : List Char} {fuel : Nat}
    (hfuel : cs.length < fuel) :
    characters fuel (cs.flatMap escapeChar ++ '"' :: rest) = some (cs, rest) := by
  induction cs generalizing fuel with
  | nil =>
      obtain ⟨fuel, rfl⟩ := Nat.exists_eq_succ_of_ne_zero (Nat.ne_zero_of_lt hfuel)
      rfl
  | cons c cs ih =>
      obtain ⟨fuel, rfl⟩ := Nat.exists_eq_succ_of_ne_zero (Nat.ne_zero_of_lt hfuel)
      obtain ⟨first, more, hc, hquote⟩ := escapeChar_eq_cons c
      have hread := @character?_escapeChar c (cs.flatMap escapeChar ++ '"' :: rest)
      have hrest := ih (Nat.lt_of_succ_lt_succ hfuel)
      rw [List.flatMap_cons, List.append_assoc]
      rw [hc, List.cons_append] at hread ⊢
      rw [characters, hread]
      · simp only [Option.bind_eq_bind, Option.bind_some, hrest]
        rfl
      · rintro rest' ⟨rfl, rfl⟩
        exact hquote rfl

theorem length_le_flatMap
    (cs : List Char) :
    cs.length ≤ (cs.flatMap escapeChar).length := by
  induction cs with
  | nil => exact Nat.le_refl 0
  | cons c cs ih =>
      obtain ⟨first, more, hc, -⟩ := escapeChar_eq_cons c
      rw [List.flatMap_cons, hc, List.length_append, List.length_cons, List.length_cons]
      omega

/-- A text comes back from between its quotes. -/
theorem quoted?_quoted
    (s : String) (rest : List Char) :
    quoted? (quoted s ++ rest) = some (s, rest) := by
  have hlength := length_le_flatMap s.toList
  rw [quoted, List.cons_append, List.append_assoc, quoted?, List.singleton_append,
    characters_flatMap (by rw [List.length_append]; omega)]
  exact congrArg some (Prod.ext String.ofList_toList rfl)

end Characters
/-- What may follow a value: a comma or a new line. -/
def Stops (rest : List Char) : Prop := ∃ c cs, rest = c :: cs ∧ (c = ',' ∨ c = '\n')

section Numbers

variable {n : Int} {m : Nat} {rest : List Char}

/-- Where a number must stop no digit follows. -/
theorem Stops.not_digit
    (h : Stops rest) :
    rest.takeWhile Char.isDigit = [] ∧ rest.dropWhile Char.isDigit = rest := by
  obtain ⟨c, cs, rfl, rfl | rfl⟩ := h
  · exact ⟨rfl, rfl⟩
  · exact ⟨rfl, rfl⟩

theorem Stops.fraction?
    (h : Stops rest) :
    fraction? rest = some (false, rest) := by
  obtain ⟨c, cs, rfl, rfl | rfl⟩ := h
  · rfl
  · rfl

theorem Stops.exponent?
    (h : Stops rest) :
    exponent? rest = some (false, rest) := by
  obtain ⟨c, cs, rfl, rfl | rfl⟩ := h
  · rfl
  · rfl

theorem digits_toDigits
    (h : Stops rest) :
    digits (Nat.toDigits 10 m ++ rest) = (Nat.toDigits 10 m, rest) := by
  have hall : ∀ c ∈ Nat.toDigits 10 m, c.isDigit = true := fun c hc =>
    Nat.isDigit_of_mem_toDigits (by decide) (by decide) hc
  rw [digits, List.span_eq_takeWhile_dropWhile, List.takeWhile_append_of_pos hall,
    List.dropWhile_append_of_pos hall, h.not_digit.1, h.not_digit.2, List.append_nil]

theorem toDigits_eq_cons
    (m : Nat) :
    ∃ c cs, Nat.toDigits 10 m = c :: cs ∧ c.isDigit = true := by
  obtain ⟨c, cs, hdigits⟩ := List.exists_cons_of_ne_nil (@Nat.toDigits_ne_nil m 10)
  have hc : c ∈ Nat.toDigits 10 m := by
    rw [hdigits]
    exact List.mem_cons_self
  exact ⟨c, cs, hdigits, Nat.isDigit_of_mem_toDigits (by decide) (by decide) hc⟩

theorem digitChar_ne_zero :
    ∀ m < 10, 0 < m → Nat.digitChar m ≠ '0' := by
  decide

/-- Only zero is written with a zero in front. -/
theorem toDigits_head
    (hm : 0 < m) :
    ∃ c cs, Nat.toDigits 10 m = c :: cs ∧ c ≠ '0' := by
  induction m using Nat.strong_induction_on with
  | _ m ih =>
      rw [Nat.toDigits_eq_if (by decide)]
      split
      · exact ⟨_, [], rfl, digitChar_ne_zero m ‹_› hm⟩
      · obtain ⟨c, cs, hdigits, hc⟩ := ih (m / 10) (by omega) (by omega)
        exact ⟨c, cs ++ [(m % 10).digitChar], by rw [hdigits, List.cons_append], hc⟩

/-- The digits of a number are read to their end, and no zero stands in front of them. -/
theorem whole?_toDigits
    (h : Stops rest) :
    whole? (Nat.toDigits 10 m ++ rest) = some (Nat.toDigits 10 m, rest) := by
  rcases Nat.eq_zero_or_pos m with rfl | hm
  · rw [whole?, digits_toDigits h]
    rfl
  · obtain ⟨c, cs, hdigits, hc⟩ := toDigits_head hm
    have hread := @digits_toDigits m rest h
    rw [hdigits] at hread ⊢
    unfold whole?
    split
    · rename_i hnone
      rw [hread] at hnone
      exact absurd (Prod.mk.inj hnone).1 (List.cons_ne_nil c cs)
    · rename_i hzero
      rw [hread] at hzero
      exact absurd (List.cons.inj (Prod.mk.inj hzero).1).1 hc
    · rw [hread]

/-- The digits of a number have its value. -/
theorem decimal_toDigits :
    decimal (Nat.toDigits 10 m) = m := by
  have hvalue := @Nat.ofDigitChars_ten_toDigits m
  rwa [Nat.ofDigitChars_eq_foldl] at hvalue

theorem fits_eq_true
    (hn : Is64Bit n) :
    fits n = true := by
  rw [fits, Bool.and_eq_true, decide_eq_true_eq, decide_eq_true_eq]
  exact hn

theorem toList_toString_of_nonneg
    (hn : 0 ≤ n) :
    (toString n).toList = Nat.toDigits 10 n.natAbs := by
  have habs : n.toNat = n.natAbs := by omega
  rw [Int.toString_eq_repr, Int.repr_eq_if, if_pos hn, Nat.toList_repr, habs]

theorem toList_toString_of_neg
    (hn : ¬ 0 ≤ n) :
    (toString n).toList = '-' :: Nat.toDigits 10 n.natAbs := by
  have habs : (-n).toNat = n.natAbs := by omega
  rw [Int.toString_eq_repr, Int.repr_eq_if, if_neg hn, String.toList_append, Nat.toList_repr, habs]
  rfl

/-- An integer of 64 bits comes back. -/
theorem number?_toString
    (hn : Is64Bit n)
    (h : Stops rest) :
    number? ((toString n).toList ++ rest) = some (.int n, rest) := by
  unfold number?
  split
  rename_i negative tail hsign
  have hparts : negative = decide (n < 0) ∧ tail = Nat.toDigits 10 n.natAbs ++ rest := by
    by_cases hzero : 0 ≤ n
    · rw [toList_toString_of_nonneg hzero] at hsign
      split at hsign
      · rename_i hminus
        obtain ⟨c, cs, hdigits, hc⟩ := toDigits_eq_cons n.natAbs
        rw [hdigits] at hminus
        rw [(List.cons.inj hminus).1] at hc
        exact absurd hc (by decide)
      · obtain ⟨rfl, rfl⟩ := Prod.mk.inj hsign
        exact ⟨by simpa using hzero, rfl⟩
    · rw [toList_toString_of_neg hzero] at hsign
      obtain ⟨rfl, rfl⟩ := Prod.mk.inj hsign
      exact ⟨by simpa using hzero, rfl⟩
  obtain ⟨rfl, rfl⟩ := hparts
  have hvalue : (if n < 0 then -(n.natAbs : Int) else n.natAbs) = n := by omega
  simp only [Option.bind_eq_bind, whole?_toDigits h, h.fraction?, h.exponent?, Option.bind_some,
    decimal_toDigits, Bool.not_false, Bool.true_and, Option.pure_def, decide_eq_true_eq, hvalue,
    fits_eq_true hn, if_true]

/-- An integer starts with a digit or with its sign. -/
theorem toString_eq_cons
    (n : Int) :
    ∃ c cs, (toString n).toList = c :: cs ∧ (c.isDigit = true ∨ c = '-') := by
  by_cases hn : 0 ≤ n
  · obtain ⟨c, cs, hdigits, hc⟩ := toDigits_eq_cons n.natAbs
    exact ⟨c, cs, by rw [toList_toString_of_nonneg hn, hdigits], Or.inl hc⟩
  · exact ⟨'-', _, toList_toString_of_neg hn, Or.inr rfl⟩

end Numbers

section Sequences

variable {α : Type} {item : List Char → Option (α × List Char)} {write : α → List Char}
  {close c : Char} {rest : List Char} {level : Nat}

theorem stops_newline
    (level : Nat) (rest : List Char) :
    Stops (newline level ++ rest) :=
  ⟨'\n', _, rfl, Or.inr rfl⟩

theorem skipGaps_cons
    (hc : isGap c = false) :
    skipGaps (c :: rest) = c :: rest := by
  rw [skipGaps, List.dropWhile_cons, if_neg (by rw [hc]; decide)]

/-- The blanks of a new line are skipped. -/
theorem skipGaps_newline
    (hc : isGap c = false) :
    skipGaps (newline level ++ c :: rest) = c :: rest := by
  have hblank : ∀ x ∈ newline level, isGap x = true := by
    intro x hx
    rcases List.mem_cons.mp hx with rfl | hx
    · rfl
    · rw [(List.mem_replicate.mp hx).2]
      rfl
  rw [skipGaps, List.dropWhile_append_of_pos hblank]
  exact skipGaps_cons hc

/-- What is written for an item starts with no blank, and is read back whatever may follow. -/
structure ReadsBack (item : List Char → Option (α × List Char)) (write : α → List Char)
    (close : Char) (x : α) : Prop where
  starts : ∃ c cs, write x = c :: cs ∧ isGap c = false ∧ c ≠ close
  reads : ∀ rest, Stops rest → item (write x ++ rest) = some (x, rest)

/-- The further items of a sequence as they are written. -/
def further (level : Nat) (write : α → List Char) (xs : List α) : List Char :=
  xs.flatMap fun x => ',' :: (newline level ++ write x)

theorem skipGaps_item
    {x : α}
    (h : ReadsBack item write close x) :
    skipGaps (newline level ++ (write x ++ rest)) = write x ++ rest := by
  obtain ⟨c, cs, hwrite, hgap, -⟩ := h.starts
  rw [hwrite, List.cons_append, skipGaps_newline hgap]

theorem sequence_further
    {inner outer fuel : Nat} {x : α} {xs : List α}
    (hgap : isGap close = false)
    (hcomma : close ≠ ',')
    (h : ∀ y ∈ x :: xs, ReadsBack item write close y)
    (hfuel : xs.length < fuel) :
    sequence item close fuel
        (newline inner ++ (write x ++ (further inner write xs ++
          (newline outer ++ close :: rest)))) =
      some (x :: xs, rest) := by
  induction xs generalizing x fuel with
  | nil =>
      obtain ⟨fuel, rfl⟩ := Nat.exists_eq_succ_of_ne_zero (Nat.ne_zero_of_lt hfuel)
      have hx := h x List.mem_cons_self
      rw [sequence, skipGaps_item hx, further, List.flatMap_nil, List.nil_append,
        hx.reads _ (stops_newline outer _)]
      simp only [Option.bind_eq_bind, Option.bind_some, following?, skipGaps_newline hgap, hcomma,
        if_false, if_true, Option.pure_def]
  | cons y ys ih =>
      obtain ⟨fuel, rfl⟩ := Nat.exists_eq_succ_of_ne_zero (Nat.ne_zero_of_lt hfuel)
      have hx := h x List.mem_cons_self
      have hrest := ih (fun z hz => h z (List.mem_cons_of_mem x hz)) (Nat.lt_of_succ_lt_succ hfuel)
      have hfurther : further inner write (y :: ys) ++ (newline outer ++ close :: rest) =
          ',' :: (newline inner ++ (write y ++ (further inner write ys ++
            (newline outer ++ close :: rest)))) := by
        rw [further, List.flatMap_cons, List.cons_append, List.cons_append, List.append_assoc,
          List.append_assoc]
        rfl
      rw [sequence, skipGaps_item hx, hfurther, hx.reads _ ⟨',', _, rfl, Or.inl rfl⟩]
      simp only [Option.bind_eq_bind, Option.bind_some, following?,
        skipGaps_cons (show isGap ',' = false from rfl), if_true, hrest, Option.pure_def]

theorem length_le_further
    (xs : List α) :
    xs.length ≤ (further level write xs).length := by
  induction xs with
  | nil => exact Nat.le_refl 0
  | cons x xs ih =>
      unfold further at ih ⊢
      rw [List.flatMap_cons, List.length_append, List.length_cons, List.length_cons]
      omega

/-- The items between two marks come back. -/
theorem items_further
    {inner outer : Nat} {x : α} {xs : List α}
    (hgap : isGap close = false)
    (hcomma : close ≠ ',')
    (h : ∀ y ∈ x :: xs, ReadsBack item write close y) :
    items item close
        (newline inner ++ (write x ++ (further inner write xs ++
          (newline outer ++ close :: rest)))) =
      some (x :: xs, rest) := by
  have hx := h x List.mem_cons_self
  obtain ⟨c, cs, hwrite, -, hclose⟩ := hx.starts
  have hlength := @length_le_further α write inner xs
  rw [items, skipGaps_item hx, hwrite, List.cons_append]
  simp only [hclose, if_false]
  rw [← List.cons_append, ← hwrite]
  refine sequence_further hgap hcomma h ?_
  simp only [List.length_append, newline, List.length_cons]
  omega

end Sequences

section Documents

variable {level depth : Nat} {doc : Doc} {rest : List Char}

theorem renderItems_eq
    (level : Nat) (docs : List Doc) :
    renderItems level docs = further level (renderAt level) docs := by
  induction docs with
  | nil => rw [renderItems, further, List.flatMap_nil]
  | cons doc docs ih =>
      rw [renderItems, ih, further, further, List.flatMap_cons, List.cons_append]

def renderField (level : Nat) (field : String × Doc) : List Char :=
  quoted field.1 ++ (": ".toList ++ renderAt level field.2)

theorem renderFields_eq
    (level : Nat) (fields : List (String × Doc)) :
    renderFields level fields = further level (renderField level) fields := by
  induction fields with
  | nil => rw [renderFields, further, List.flatMap_nil]
  | cons field fields ih =>
      obtain ⟨key, doc⟩ := field
      rw [renderFields, ih, further, further, List.flatMap_cons, renderField]
      simp only [List.append_assoc, List.cons_append]

/-- A character that an integer may start with. -/
def StartsNumber (c : Char) : Prop := c.isDigit = true ∨ c = '-'

/-- The marks that other documents start with or end with, and the blanks, start no integer. -/
theorem StartsNumber.ne
    {c : Char}
    (hc : StartsNumber c) :
    ∀ mark ∈ ['"', '[', '\x7b', 'n', 't', 'f', ']', ' ', '\t', '\n', '\r'], c ≠ mark := by
  intro mark hmark heq
  have hnone : ∀ mark ∈ ['"', '[', '\x7b', 'n', 't', 'f', ']', ' ', '\t', '\n', '\r'],
      mark.isDigit = false ∧ mark ≠ '-' := by
    simp
  obtain ⟨hdigit, hminus⟩ := hnone mark hmark
  rw [heq] at hc
  rcases hc with hc | hc
  · rw [hdigit] at hc
    exact absurd hc Bool.false_ne_true
  · exact hminus hc

/-- What is written for a document starts with no blank and no mark of an end. -/
theorem renderAt_eq_cons
    (h : doc.Fits depth) :
    ∃ c cs, renderAt level doc = c :: cs ∧ isGap c = false ∧ c ≠ ']' := by
  cases h with
  | null => exact ⟨_, _, by rw [renderAt]; rfl, by decide, by decide⟩
  | flag b =>
      cases b with
      | false => exact ⟨_, _, by rw [renderAt]; rfl, by decide, by decide⟩
      | true => exact ⟨_, _, by rw [renderAt]; rfl, by decide, by decide⟩
  | @int _ n _ =>
      obtain ⟨c, cs, hn, hc⟩ := toString_eq_cons n
      have hne := StartsNumber.ne hc
      refine ⟨c, cs, by rw [renderAt, hn], ?_, hne _ (by decide)⟩
      simp [isGap, hne]
  | text _ => exact ⟨_, _, by rw [renderAt]; rfl, by decide, by decide⟩
  | @list _ items _ _ =>
      cases items with
      | nil => exact ⟨_, _, by rw [renderAt]; rfl, by decide, by decide⟩
      | cons doc docs => exact ⟨_, _, by rw [renderAt], by decide, by decide⟩
  | @record _ fields _ _ _ =>
      cases fields with
      | nil => exact ⟨_, _, by rw [renderAt]; rfl, by decide, by decide⟩
      | cons field fields => exact ⟨_, _, by rw [renderAt], by decide, by decide⟩

theorem value?_number
    {c : Char} {cs : List Char}
    (hc : StartsNumber c) :
    value? depth (c :: cs) = number? (c :: cs) := by
  have hne := hc.ne
  unfold value?
  simp [hne]

theorem value?_list
    {cs : List Char} :
    value? (depth + 1) ('[' :: cs) =
      (items (value? depth) ']' cs).map fun (xs, rest) => (.list xs, rest) := by
  conv_lhs => unfold value?
  rfl

theorem value?_record
    {cs : List Char} :
    value? (depth + 1) ('\x7b' :: cs) =
      (items (field? (value? depth)) '\x7d' cs).map fun (xs, rest) => (.record xs, rest) := by
  conv_lhs => unfold value?
  rfl

theorem readsBack_renderAt
    (h : doc.Fits depth)
    (hreads : ∀ rest, Stops rest →
      value? depth (renderAt level doc ++ rest) = some (doc, rest)) :
    ReadsBack (value? depth) (renderAt level) ']' doc :=
  ⟨renderAt_eq_cons h, hreads⟩

theorem readsBack_renderField
    {field : String × Doc}
    (h : field.2.Fits depth)
    (hreads : ∀ rest, Stops rest →
      value? depth (renderAt level field.2 ++ rest) = some (field.2, rest)) :
    ReadsBack (field? (value? depth)) (renderField level) '\x7d' field := by
  obtain ⟨key, doc⟩ := field
  refine ⟨⟨_, _, rfl, rfl, by decide⟩, ?_⟩
  intro rest hrest
  obtain ⟨c, cs, hdoc, hgap, -⟩ := @renderAt_eq_cons level depth doc h
  have hvalue := hreads rest hrest
  have hkey : renderField level (key, doc) ++ rest =
      quoted key ++ (':' :: ' ' :: (renderAt level doc ++ rest)) := by
    rw [renderField, List.append_assoc, List.append_assoc]
    rfl
  have hcolon : skipGaps (':' :: ' ' :: (renderAt level doc ++ rest)) =
      ':' :: ' ' :: (renderAt level doc ++ rest) :=
    skipGaps_cons rfl
  have hblank : skipGaps (' ' :: (renderAt level doc ++ rest)) = renderAt level doc ++ rest := by
    rw [hdoc, List.cons_append]
    exact skipGaps_cons hgap
  rw [hkey, field?, quoted?_quoted]
  simp only [Option.bind_eq_bind, Option.bind_some, hcolon, hblank, hvalue, Option.pure_def]

/-- A document comes back, whatever follows it. -/
theorem value?_renderAt
    (h : doc.Fits depth) :
    ∀ level rest, Stops rest →
      value? depth (renderAt level doc ++ rest) = some (doc, rest) := by
  induction h with
  | null =>
      intro level rest _
      rw [renderAt]
      unfold value?
      rfl
  | flag b =>
      intro level rest _
      cases b with
      | false =>
          rw [renderAt]
          unfold value?
          rfl
      | true =>
          rw [renderAt]
          unfold value?
          rfl
  | @int depth n hn =>
      intro level rest hrest
      have hread := number?_toString hn hrest
      obtain ⟨c, cs, hcs, hc⟩ := toString_eq_cons n
      rw [renderAt]
      rw [hcs, List.cons_append] at hread ⊢
      rw [value?_number hc, hread]
  | @text _ s _ =>
      intro level rest _
      have hread := quoted?_quoted s rest
      rw [renderAt]
      rw [quoted, List.cons_append] at hread ⊢
      unfold value?
      simp only [if_true, hread, Option.map_some]
  | @list depth items _ hitems ih =>
      intro level rest _
      cases items with
      | nil =>
          rw [renderAt]
          unfold value?
          rfl
      | cons doc docs =>
          have hback : ∀ d ∈ doc :: docs,
              ReadsBack (value? depth) (renderAt (level + 1)) ']' d := fun d hd =>
            readsBack_renderAt (hitems d hd) (ih d hd (level + 1))
          have hwritten : renderAt level (.list (doc :: docs)) ++ rest =
              '[' :: (newline (level + 1) ++ (renderAt (level + 1) doc ++
                (further (level + 1) (renderAt (level + 1)) docs ++
                  (newline level ++ ']' :: rest)))) := by
            rw [renderAt, renderItems_eq]
            simp only [List.cons_append, List.append_assoc, List.nil_append]
          rw [hwritten, value?_list, items_further rfl (by decide) hback]
          rfl
  | @record depth fields _ _ hfields ih =>
      intro level rest _
      cases fields with
      | nil =>
          rw [renderAt]
          unfold value?
          rfl
      | cons field fields =>
          have hback : ∀ f ∈ field :: fields,
              ReadsBack (field? (value? depth)) (renderField (level + 1)) '\x7d' f := fun f hf =>
            readsBack_renderField (hfields f hf) (ih f hf (level + 1))
          have hwritten : renderAt level (.record (field :: fields)) ++ rest =
              '\x7b' :: (newline (level + 1) ++ (renderField (level + 1) field ++
                (further (level + 1) (renderField (level + 1)) fields ++
                  (newline level ++ '\x7d' :: rest)))) := by
            rw [renderAt, renderFields_eq, renderField]
            simp only [List.cons_append, List.append_assoc, List.nil_append]
          rw [hwritten, value?_record, items_further rfl (by decide) hback]
          rfl

/-- A document that is nested no deeper than the reader follows comes back. -/
theorem parse_render
    (h : doc.Fits maxDepth) :
    parse (render doc).toList = some (doc, ['\n']) := by
  obtain ⟨c, cs, hdoc, hgap, -⟩ := @renderAt_eq_cons 0 maxDepth doc h
  have hskip : skipGaps (renderAt 0 doc ++ ['\n']) = renderAt 0 doc ++ ['\n'] := by
    rw [hdoc, List.cons_append, skipGaps_cons hgap]
  rw [render, String.toList_ofList, parse, hskip]
  exact value?_renderAt h 0 ['\n'] ⟨'\n', [], rfl, Or.inr rfl⟩

end Documents

end Json
end Doc
end DefUse
