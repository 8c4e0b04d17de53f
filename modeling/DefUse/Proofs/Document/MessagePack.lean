import DefUse.Document.MessagePack
import DefUse.Proofs.Document.Basic
import DefUse.Proofs.Text.Utf8
import Mathlib.Data.List.Basic

/-!
# Documents read back from octets

**Method.** A reader is run on what was written for a part, followed by any octets.  Every size and
every number falls into one of the ranges whose codes the reader knows; what stands behind a code is
read by its own reader.  A document is an induction on its parts.  Its own length bounds how deep
it is nested, since every list and every record takes an octet.

**Results.**
* `value?_renderInt`: integers of 64 bits come back.
* `value?_renderText`: texts with any characters come back.
* `value?_render` and `parse_render`: documents come back.
-/

namespace DefUse
namespace Doc
namespace MessagePack

section Octets

variable {width n : Nat} {octets rest : List UInt8}

/-- As many octets as a text has are the text. -/
theorem take?_append
    (hn : octets.length = n) :
    take? n (octets ++ rest) = some (octets, rest) := by
  rw [take?, List.take_left' hn, List.drop_left' hn]
  exact if_pos hn

theorem length_bigEndian
    (width n : Nat) :
    (bigEndian width n).length = width := by
  induction width generalizing n with
  | zero => rfl
  | succ width ih => rw [bigEndian, List.length_append, ih, List.length_singleton]

/-- Octets write a number that has no more of them. -/
theorem natOf_bigEndian
    (hn : n < span width) :
    natOf (bigEndian width n) = n := by
  induction width generalizing n with
  | zero =>
      have hzero : n = 0 := Nat.lt_one_iff.mp hn
      rw [hzero]
      rfl
  | succ width ih =>
      have hrest : n / 256 < span width := by
        have hspan : span (width + 1) = 256 * span width := Nat.pow_succ'
        exact Nat.div_lt_of_lt_mul (hspan ▸ hn)
      have hoctet : (UInt8.ofNat (n % 256)).toNat = n % 256 := by
        rw [UInt8.toNat_ofNat']
        omega
      have hvalue := ih hrest
      unfold natOf at hvalue ⊢
      rw [bigEndian, List.foldl_append, hvalue, List.foldl_cons, List.foldl_nil, hoctet,
        Nat.div_add_mod]

/-- A number that fits its width is read back. -/
theorem nat?_bigEndian
    (hn : n < span width) :
    nat? width (bigEndian width n ++ rest) = some (n, rest) := by
  rw [nat?, take?_append (length_bigEndian width n), Option.map_some]
  exact congrArg (fun m => some (m, rest)) (natOf_bigEndian hn)

/-- A text is read back from its octets. -/
theorem text?_encode
    (s : String) :
    text? (Text.Utf8.encode s).length (Text.Utf8.encode s ++ rest) = some (.text s, rest) := by
  rw [text?, take?_append rfl, Option.map_some]
  simp only [Text.Utf8.lossy_encode, String.ofList_toList]

end Octets

section Forms

variable {code : UInt8} {n : Nat}

theorem form?_int
    (hn : code.toNat < 0x80) :
    form? code = some (.whole (.int code.toNat)) := by
  unfold form?
  simp only
  rw [if_pos hn]

theorem form?_record
    (hcode : code.toNat = 0x80 + n)
    (hn : n < 0x10) :
    form? code = some (.record n) := by
  unfold form?
  simp only [hcode]
  rw [if_neg (by omega), if_pos (by omega), Nat.add_sub_cancel_left]

theorem form?_list
    (hcode : code.toNat = 0x90 + n)
    (hn : n < 0x10) :
    form? code = some (.list n) := by
  unfold form?
  simp only [hcode]
  rw [if_neg (by omega), if_neg (by omega), if_pos (by omega), Nat.add_sub_cancel_left]

theorem form?_text
    (hcode : code.toNat = 0xa0 + n)
    (hn : n < 0x20) :
    form? code = some (.text n) := by
  unfold form?
  simp only [hcode]
  rw [if_neg (by omega), if_neg (by omega), if_neg (by omega), if_pos (by omega),
    Nat.add_sub_cancel_left]

theorem form?_negative
    (hn : 0xe0 ≤ code.toNat) :
    form? code = some (.whole (.int (code.toNat - 0x100))) := by
  unfold form?
  simp only
  rw [if_neg (by omega), if_neg (by omega), if_neg (by omega), if_neg (by omega), if_pos hn]

theorem toNat_add_ofNat
    (hn : code.toNat + n < 0x100) :
    (code + UInt8.ofNat n).toNat = code.toNat + n := by
  have hadd := UInt8.toNat_ofNat_of_lt' hn
  rwa [UInt8.ofNat_add, UInt8.ofNat_toNat] at hadd

end Forms

section Scalars

variable {code : UInt8} {depth width : Nat} {n : Int} {rest octets : List UInt8}

/-- A code that is a value by itself is read as that value. -/
theorem value?_whole
    {doc : Doc}
    (hform : form? code = some (.whole doc)) :
    value? (depth + 1) (code :: octets) = some (doc, octets) := by
  rw [value?, hform]

/-- A code followed by a number is read as that number. -/
theorem value?_number
    {read : Nat → Doc} {m : Nat}
    (hform : form? code = some (.number width read))
    (hm : m < span width) :
    value? (depth + 1) (coded code width m ++ rest) = some (read m, rest) := by
  rw [coded, List.cons_append, value?, hform]
  simp only [nat?_bigEndian hm, Option.map_some]

/-- A number is read as the integer of the same remainder that its width holds. -/
theorem signed_toNat
    (hlow : -(span width : Int) ≤ n * 2)
    (hhigh : n * 2 < span width) :
    signed width (n % (span width : Int)).toNat = n := by
  have hpos : 0 < (span width : Int) := by omega
  rw [signed, Int.toNat_of_nonneg (Int.emod_nonneg n (by omega)), Int.emod_bmod]
  exact Int.bmod_eq_of_le_mul_two hlow hhigh

/-- A code followed by a signed number is read as that number, if it fits its width. -/
theorem value?_signed
    (hform : form? code = some (.number width fun m => .int (signed width m)))
    (hlow : -(span width : Int) ≤ n * 2)
    (hhigh : n * 2 < span width) :
    value? (depth + 1) (coded code width (n % (span width : Int)).toNat ++ rest) =
      some (.int n, rest) := by
  have hpos : 0 < (span width : Int) := by omega
  have hlt := Int.emod_lt_of_pos n hpos
  have hnonneg := Int.emod_nonneg n (Int.ne_of_gt hpos)
  rw [value?_number hform (by omega), signed_toNat hlow hhigh]

/-- An integer of 64 bits comes back. -/
theorem value?_renderInt
    (hn : Is64Bit n) :
    value? (depth + 1) (renderInt n ++ rest) = some (.int n, rest) := by
  have hspan : span 1 = 0x100 ∧ span 2 = 0x10000 ∧ span 4 = 0x100000000 ∧
      span 8 = 0x10000000000000000 := ⟨rfl, rfl, rfl, rfl⟩
  obtain ⟨h1, h2, h4, h8⟩ := hspan
  unfold Is64Bit at hn
  unfold renderInt
  simp only
  split
  · -- the widths of a number that is not negative
    have hcast : (n.toNat : Int) = n := by omega
    split
    · have hcode := UInt8.toNat_ofNat_of_lt' (show n.toNat < 0x100 by omega)
      rw [List.singleton_append, value?_whole (form?_int (by omega)), hcode, hcast]
    split
    · rw [value?_number rfl ‹_›, hcast]
    split
    · rw [value?_number rfl ‹_›, hcast]
    split
    · rw [value?_number rfl ‹_›, hcast]
    · have hread := @value?_signed 0xcf depth 8 n rest rfl (by omega) (by omega)
      rwa [Int.emod_eq_of_lt (by omega) (by omega)] at hread
  split
  · have hcode : ((UInt8.ofNat (n % (span 1 : Int)).toNat).toNat : Int) - 0x100 = n := by
      rw [h1, UInt8.toNat_ofNat']
      omega
    rw [List.singleton_append, value?_whole (form?_negative (by omega)), hcode]
  split
  · exact value?_signed rfl (by omega) (by omega)
  split
  · exact value?_signed rfl (by omega) (by omega)
  split
  · exact value?_signed rfl (by omega) (by omega)
  · exact value?_signed rfl (by omega) (by omega)

/-- A text comes back. -/
theorem value?_renderText
    {s : String}
    (hs : IsShort s) :
    value? (depth + 1) (renderText s ++ rest) = some (.text s, rest) := by
  have hlength := Text.Utf8.length_encode s
  have hread := @text?_encode rest s
  unfold IsShort sizeLimit at hs
  have hlong : ∀ {code width}, form? code = some (.longText width) →
      (Text.Utf8.encode s).length < span width →
      value? (depth + 1) (coded code width (Text.Utf8.encode s).length ++
        (Text.Utf8.encode s ++ rest)) = some (.text s, rest) := by
    intro code width hform hsize
    rw [coded, List.cons_append, value?, hform]
    simp only [nat?_bigEndian hsize, Option.bind_some, hread]
  rw [renderText, List.append_assoc]
  -- the cases are the codes for the number of octets
  split
  · have hcode := UInt8.toNat_ofNat_of_lt'
      (show 0xa0 + (Text.Utf8.encode s).length < 0x100 by omega)
    rw [List.singleton_append, value?, form?_text hcode ‹_›]
    exact hread
  split
  · exact hlong rfl ‹_›
  split
  · exact hlong rfl ‹_›
  · exact hlong rfl (by rw [hlength]; exact hs)

end Scalars

section Documents

variable {depth n : Nat} {rest octets : List UInt8}

/-- Items that are read back one by one are read back together. -/
theorem many_flatMap
    {α β : Type} {item : List UInt8 → Option (β × List UInt8)} {write : α → List UInt8}
    {xs : List α}
    (result : α → β)
    (h : ∀ x ∈ xs, ∀ rest, item (write x ++ rest) = some (result x, rest)) :
    many item xs.length (xs.flatMap write ++ rest) = some (xs.map result, rest) := by
  induction xs with
  | nil => rfl
  | cons x xs ih =>
      have hrest := ih fun y hy => h y (List.mem_cons_of_mem x hy)
      rw [List.flatMap_cons, List.append_assoc, List.length_cons, many,
        h x List.mem_cons_self]
      simp only [Option.bind_eq_bind, Option.bind_some, hrest, Option.pure_def, List.map_cons]

theorem renderItems_eq
    (docs : List Doc) :
    renderItems docs = docs.flatMap render := by
  induction docs with
  | nil => rw [renderItems, List.flatMap_nil]
  | cons doc docs ih => rw [renderItems, ih, List.flatMap_cons]

def renderField (field : String × Doc) : List UInt8 :=
  renderText field.1 ++ render field.2

theorem renderFields_eq
    (fields : List (String × Doc)) :
    renderFields fields = fields.flatMap renderField := by
  induction fields with
  | nil => rw [renderFields, List.flatMap_nil]
  | cons field fields ih =>
      obtain ⟨key, doc⟩ := field
      rw [renderFields, ih, List.flatMap_cons, renderField]

/-- The reader of a key and its value. -/
def pair? (depth : Nat) (octets : List UInt8) : Option ((Doc × Doc) × List UInt8) := do
  let (key, rest) ← value? depth octets
  let (doc, rest) ← value? depth rest
  return ((key, doc), rest)

/-- The header of a list is read in each of its sizes. -/
theorem value?_list
    (hn : n < sizeLimit) :
    value? (depth + 1) (header 0x90 0xdc 0xdd n ++ octets) =
      (many (value? depth) n octets).map fun (xs, rest) => (.list xs, rest) := by
  unfold sizeLimit at hn
  unfold header
  split
  · have hcode : ((0x90 : UInt8) + UInt8.ofNat n).toNat = 0x90 + n :=
      toNat_add_ofNat (show (0x90 : UInt8).toNat + n < 0x100 by change 0x90 + n < 0x100; omega)
    rw [List.singleton_append, value?, form?_list hcode ‹_›]
  split
  · rw [coded, List.cons_append, value?, show form? 0xdc = some (.longList 2) from rfl]
    simp only [nat?_bigEndian ‹_›, Option.bind_some]
  · rw [coded, List.cons_append, value?, show form? 0xdd = some (.longList 4) from rfl]
    simp only [nat?_bigEndian (show n < span 4 from hn), Option.bind_some]

/-- The header of a record is read in each of its sizes. -/
theorem value?_record
    (hn : n < sizeLimit) :
    value? (depth + 1) (header 0x80 0xde 0xdf n ++ octets) =
      (many (pair? depth) n octets).map fun (xs, rest) => (recordOf xs, rest) := by
  unfold sizeLimit at hn
  unfold header
  split
  · have hcode : ((0x80 : UInt8) + UInt8.ofNat n).toNat = 0x80 + n :=
      toNat_add_ofNat (show 0x80 + n < 0x100 by omega)
    rw [List.singleton_append, value?, form?_record hcode ‹_›]
    rfl
  split
  · rw [coded, List.cons_append, value?, show form? 0xde = some (.longRecord 2) from rfl]
    simp only [nat?_bigEndian ‹_›, Option.bind_some]
    rfl
  · rw [coded, List.cons_append, value?, show form? 0xdf = some (.longRecord 4) from rfl]
    simp only [nat?_bigEndian (show n < span 4 from hn), Option.bind_some]
    rfl

/-- Keys that are texts are the keys of a record. -/
theorem recordOf_map
    (fields : List (String × Doc)) :
    recordOf (fields.map fun field => (.text field.1, field.2)) = .record fields := by
  have hkeys := @List.mapM_pure Option _ _ _ _ fields id
  rw [List.map_id] at hkeys
  rw [recordOf, List.mapM_map]
  split
  · rename_i keyed hkeyed
    rw [Option.some.inj (hkeyed.symm.trans hkeys)]
  · rename_i hnone
    exact absurd (hnone.symm.trans hkeys) (Option.some_ne_none fields).symm

theorem header_pos
    (small medium large : UInt8) (n : Nat) :
    0 < (header small medium large n).length := by
  unfold header coded
  repeat' split
  all_goals exact Nat.succ_pos _

theorem renderInt_pos
    (n : Int) :
    0 < (renderInt n).length := by
  unfold renderInt coded
  simp only
  repeat' split
  all_goals exact Nat.succ_pos _

theorem renderText_pos
    (s : String) :
    0 < (renderText s).length := by
  unfold renderText coded
  rw [List.length_append]
  refine Nat.add_pos_left ?_ _
  repeat' split
  all_goals exact Nat.succ_pos _

theorem length_le_flatMap
    {α : Type} {write : α → List UInt8} {xs : List α} {x : α}
    (hx : x ∈ xs) :
    (write x).length ≤ (xs.flatMap write).length :=
  (List.sublist_flatten_of_mem (List.mem_map_of_mem hx)).length_le

/-- Every document takes an octet. -/
theorem render_pos
    {doc : Doc} :
    0 < (render doc).length := by
  cases doc with
  | null | flag | other =>
      rw [render]
      exact Nat.one_pos
  | int n =>
      rw [render]
      exact renderInt_pos n
  | text s =>
      rw [render]
      exact renderText_pos s
  | list items =>
      rw [render, List.length_append]
      exact Nat.add_pos_left (header_pos _ _ _ _) _
  | record fields =>
      rw [render, List.length_append]
      exact Nat.add_pos_left (header_pos _ _ _ _) _

/-- A document comes back, whatever follows it. -/
theorem value?_render
    {bound : Nat} {doc : Doc}
    (h : doc.Fits bound) :
    ∀ depth rest, (render doc).length ≤ depth + 1 →
      value? (depth + 1) (render doc ++ rest) = some (doc, rest) := by
  induction h with
  | null =>
      intro depth rest _
      rw [render]
      exact value?_whole rfl
  | flag b =>
      intro depth rest _
      rw [render]
      cases b with
      | false => exact value?_whole rfl
      | true => exact value?_whole rfl
  | int hn =>
      intro depth rest _
      rw [render]
      exact value?_renderInt hn
  | text hs =>
      intro depth rest _
      rw [render]
      exact value?_renderText hs
  | @list _ items hlength _ ih =>
      intro depth rest hdepth
      have hheader := header_pos 0x90 0xdc 0xdd items.length
      rw [render, renderItems_eq] at hdepth ⊢
      rw [List.length_append] at hdepth
      rw [List.append_assoc, value?_list hlength, many_flatMap id]
      · rw [List.map_id]
        rfl
      · intro doc hdoc rest
        have hle := @length_le_flatMap _ render items doc hdoc
        have hpos := @render_pos doc
        obtain ⟨below, rfl⟩ : ∃ below, depth = below + 1 := ⟨depth - 1, by omega⟩
        exact ih doc hdoc below rest (by omega)
  | @record _ fields hlength hkeys _ ih =>
      intro depth rest hdepth
      have hheader := header_pos 0x80 0xde 0xdf fields.length
      rw [render, renderFields_eq] at hdepth ⊢
      rw [List.length_append] at hdepth
      rw [List.append_assoc, value?_record hlength,
        many_flatMap fun field => (.text field.1, field.2)]
      · simp only [Option.map_some, recordOf_map]
      · intro field hfield rest
        have hle := @length_le_flatMap _ renderField fields field hfield
        rw [renderField, List.length_append] at hle
        have hpos := renderText_pos field.1
        obtain ⟨below, rfl⟩ : ∃ below, depth = below + 1 := ⟨depth - 1, by omega⟩
        rw [renderField, List.append_assoc, pair?, value?_renderText (hkeys field hfield)]
        simp only [Option.bind_eq_bind, Option.bind_some,
          ih field hfield below rest (by omega), Option.pure_def]

/-- A document comes back. -/
theorem parse_render
    {bound : Nat} {doc : Doc}
    (h : doc.Fits bound) :
    parse (render doc) = some (doc, []) := by
  obtain ⟨depth, hdepth⟩ := Nat.exists_eq_add_of_le' (@render_pos doc)
  have hread := value?_render h depth [] (Nat.le_of_eq hdepth)
  rwa [List.append_nil, ← hdepth] at hread

end Documents
end MessagePack
end Doc
end DefUse
