import DefUse.Document.Basic

/-!
# Documents that are written in full

Integers have 64 bits, and a text or a list has a size that four octets hold.  What is said below
about reading a document back holds for all documents of this kind.

**Results.** `Doc.Fits` bounds the nesting of such a document; `FieldsFit.record` builds a record
from groups of fields.
-/

namespace DefUse

namespace Doc

/-- The number of octets of a text, or of items of a list, that no document reaches. -/
def sizeLimit : Nat := 0x100000000

/-- An integer of 64 bits. -/
def Is64Bit (n : Int) : Prop := -0x8000000000000000 ≤ n ∧ n < 0x8000000000000000

/-- A text short enough to be written down. -/
def IsShort (s : String) : Prop := s.utf8ByteSize < sizeLimit

instance (n : Int) : Decidable (Is64Bit n) := inferInstanceAs (Decidable (_ ∧ _))

instance (s : String) : Decidable (IsShort s) := inferInstanceAs (Decidable (_ < _))

/-- A document in which lists and records are nested at most so deep, and whose integers, texts and
lists are within bounds. -/
inductive Fits : Nat → Doc → Prop
  | null {depth : Nat} :
      Fits depth .null
  | flag {depth : Nat} (b : Bool) :
      Fits depth (.flag b)
  | int {depth : Nat} {n : Int}
      (hn : Is64Bit n) :
      Fits depth (.int n)
  | text {depth : Nat} {s : String}
      (hs : IsShort s) :
      Fits depth (.text s)
  | list {depth : Nat} {items : List Doc}
      (hlength : items.length < sizeLimit)
      (hitems : ∀ doc ∈ items, Fits depth doc) :
      Fits (depth + 1) (.list items)
  | record {depth : Nat} {fields : List (String × Doc)}
      (hlength : fields.length < sizeLimit)
      (hkeys : ∀ field ∈ fields, IsShort field.1)
      (hfields : ∀ field ∈ fields, Fits depth field.2) :
      Fits (depth + 1) (.record fields)

/-- At most so many fields, which a document of the given depth may hold. -/
structure FieldsFit (depth count : Nat) (fields : List (String × Doc)) : Prop where
  length : fields.length ≤ count
  keys : ∀ field ∈ fields, IsShort field.1
  fields : ∀ field ∈ fields, Fits depth field.2

namespace FieldsFit

variable {depth count : Nat} {xs ys : List (String × Doc)} {key : String} {doc : Doc}

theorem nil :
    FieldsFit depth count [] :=
  ⟨Nat.zero_le count, fun _ h => absurd h List.not_mem_nil, fun _ h => absurd h List.not_mem_nil⟩

theorem single
    (hdoc : Fits depth doc)
    (hkey : IsShort key := by decide) :
    FieldsFit depth 1 [(key, doc)] := by
  refine ⟨Nat.le_refl 1, ?_, ?_⟩
  · intro field hfield
    rw [List.mem_singleton.mp hfield]
    exact hkey
  · intro field hfield
    rw [List.mem_singleton.mp hfield]
    exact hdoc

theorem append
    (h : FieldsFit depth 1 xs)
    (h' : FieldsFit depth count ys) :
    FieldsFit depth (count + 1) (xs ++ ys) := by
  refine ⟨?_, ?_, ?_⟩
  · rw [List.length_append, Nat.add_comm]
    exact Nat.add_le_add h'.length h.length
  · intro field hfield
    exact (List.mem_append.mp hfield).elim (h.keys field) (h'.keys field)
  · intro field hfield
    exact (List.mem_append.mp hfield).elim (h.fields field) (h'.fields field)

theorem record
    (h : FieldsFit depth count xs)
    (hcount : count < sizeLimit) :
    Fits (depth + 1) (.record xs) :=
  .record (Nat.lt_of_le_of_lt h.length hcount) h.keys h.fields

end FieldsFit

end Doc

end DefUse
