/-!
# Bit sets with a length

A set of numbers below a length, kept as the binary digits of one number.  The length is part of
the value: two sets with the same members and different lengths are different.

**Results.** Every operation is read through `test`; a union has the longer length, an
intersection the shorter one, a difference that of its first operand, and setting a bit beyond
the end extends the set.
-/

namespace DefUse

/-- A set of numbers below `length`. -/
structure Bits where
  /-- The number of places. -/
  length : Nat
  /-- The members, as binary digits. -/
  mask : Nat
  /-- No member lies beyond the length. -/
  mask_lt : mask < Nat.pow 2 length
  deriving DecidableEq, Repr

namespace Bits

def empty (length : Nat) : Bits := ⟨length, 0, Nat.two_pow_pos length⟩

def test (b : Bits) (i : Nat) : Bool := b.mask.testBit i

def any (b : Bits) : Bool := b.mask != 0

/-- The members of both sets, with the longer length. -/
def union (a b : Bits) : Bits where
  length := max a.length b.length
  mask := a.mask ||| b.mask
  mask_lt := by
    apply Nat.or_lt_two_pow
    · exact Nat.lt_of_lt_of_le a.mask_lt (Nat.pow_le_pow_right (by decide) (Nat.le_max_left _ _))
    · exact Nat.lt_of_lt_of_le b.mask_lt (Nat.pow_le_pow_right (by decide) (Nat.le_max_right _ _))

/-- The common members, with the shorter length. -/
def inter (a b : Bits) : Bits where
  length := min a.length b.length
  mask := a.mask &&& b.mask
  mask_lt := by
    by_cases h : a.length ≤ b.length
    · rw [Nat.min_eq_left h, Nat.and_comm]
      exact Nat.and_lt_two_pow _ a.mask_lt
    · rw [Nat.min_eq_right (by omega)]
      exact Nat.and_lt_two_pow _ b.mask_lt

/-- The members of the first set that are not in the second, with the length of the first. -/
def diff (a b : Bits) : Bits where
  length := a.length
  mask := a.mask ^^^ (a.mask &&& b.mask)
  mask_lt := Nat.xor_lt_two_pow a.mask_lt
    (by rw [Nat.and_comm]; exact Nat.and_lt_two_pow _ a.mask_lt)

/-- The set with one more member, extended to hold it. -/
def insert (a : Bits) (i : Nat) : Bits where
  length := max a.length (i + 1)
  mask := a.mask ||| Nat.pow 2 i
  mask_lt := by
    apply Nat.or_lt_two_pow
    · exact Nat.lt_of_lt_of_le a.mask_lt (Nat.pow_le_pow_right (by decide) (Nat.le_max_left _ _))
    · exact Nat.lt_of_lt_of_le (Nat.pow_lt_pow_right (by decide) (Nat.lt_succ_self i))
        (Nat.pow_le_pow_right (by decide) (Nat.le_max_right _ _))

/-- The set of a given length with the listed members, extended to hold them. -/
def ofList (length : Nat) (members : List Nat) : Bits :=
  members.foldl insert (empty length)

/-- The binary digits of the numbers below `n` that satisfy a condition. -/
def maskOf (p : Nat → Bool) : Nat → Nat
  | 0 => 0
  | n + 1 => if p n then maskOf p n ||| Nat.pow 2 n else maskOf p n

/-- The number of a set below `n` has no bit from `n` on. -/
theorem maskOf_lt
    (p : Nat → Bool) (n : Nat) :
    maskOf p n < Nat.pow 2 n := by
  induction n with
  | zero => exact Nat.one_pos
  | succ n ih =>
      have hlt : maskOf p n < Nat.pow 2 (n + 1) :=
        Nat.lt_of_lt_of_le ih (Nat.pow_le_pow_right (by decide) (Nat.le_succ n))
      unfold maskOf
      split
      · exact Nat.or_lt_two_pow hlt (Nat.pow_lt_pow_right (by decide) (Nat.lt_succ_self n))
      · exact hlt

/-- The bits of the number are the members below `n`. -/
theorem testBit_maskOf
    (p : Nat → Bool) (n i : Nat) :
    (maskOf p n).testBit i = (decide (i < n) && p i) := by
  induction n with
  | zero => simp [maskOf]
  | succ n ih =>
      unfold maskOf
      by_cases hi : i = n
      · subst hi
        split <;> simp_all [Nat.testBit_or]
      · have hlt : (i < n + 1) = (i < n) := by
          apply propext
          omega
        split
        · simp [Nat.testBit_or, ih, hlt, Ne.symm hi]
        · simp [ih, hlt]

/-- The numbers below the length that satisfy a condition. -/
def ofPred (length : Nat) (p : Nat → Bool) : Bits :=
  ⟨length, maskOf p length, maskOf_lt p length⟩

def toList (b : Bits) : List Nat :=
  (List.range b.length).filter b.test

def render (b : Bits) : String :=
  "\x7b" ++ String.intercalate "," (b.toList.map toString) ++ "\x7d"

@[simp] theorem length_empty
    (n : Nat) :
    (empty n).length = n := by
  rfl

@[simp] theorem test_empty
    (n i : Nat) :
    (empty n).test i = false := by
  simp [empty, test]

/-- A union is as long as the longer of the two. -/
@[simp] theorem length_union
    (a b : Bits) :
    (a.union b).length = max a.length b.length := by
  rfl

/-- A union has the bits of either. -/
@[simp] theorem test_union
    (a b : Bits) (i : Nat) :
    (a.union b).test i = (a.test i || b.test i) := by
  simp [union, test, Nat.testBit_or]

/-- An intersection is as long as the shorter of the two. -/
@[simp] theorem length_inter
    (a b : Bits) :
    (a.inter b).length = min a.length b.length := by
  rfl

/-- An intersection has the bits of both. -/
@[simp] theorem test_inter
    (a b : Bits) (i : Nat) :
    (a.inter b).test i = (a.test i && b.test i) := by
  simp [inter, test, Nat.testBit_and]

/-- A difference keeps the length of the set that is taken from. -/
@[simp] theorem length_diff
    (a b : Bits) :
    (a.diff b).length = a.length := by
  rfl

/-- A difference has the bits of the first that the second lacks. -/
@[simp] theorem test_diff
    (a b : Bits) (i : Nat) :
    (a.diff b).test i = (a.test i && !b.test i) := by
  simp only [diff, test, Nat.testBit_xor, Nat.testBit_and]
  cases a.mask.testBit i <;> cases b.mask.testBit i <;> rfl

/-- Where a bit lies behind the end, the set grows up to it. -/
@[simp] theorem length_insert
    (a : Bits) (i : Nat) :
    (a.insert i).length = max a.length (i + 1) := by
  rfl

/-- Nothing but the one bit is added. -/
@[simp] theorem test_insert
    (a : Bits) (i j : Nat) :
    (a.insert i).test j = (a.test j || decide (i = j)) := by
  simp [insert, test, Nat.testBit_or, Nat.testBit_two_pow]

@[simp] theorem length_ofPred
    (n : Nat) (p : Nat → Bool) :
    (ofPred n p).length = n := by
  rfl

/-- There is no bit behind the end. -/
theorem test_eq_false_of_length_le
    {b : Bits} {i : Nat}
    (h : b.length ≤ i) :
    b.test i = false :=
  Nat.testBit_lt_two_pow
    (Nat.lt_of_lt_of_le b.mask_lt (Nat.pow_le_pow_right (by decide) h))

/-- Sets with one length and the same members are equal. -/
theorem ext_test
    {a b : Bits}
    (hlen : a.length = b.length)
    (htest : ∀ i, a.test i = b.test i) :
    a = b := by
  cases a with
  | mk la ma ha =>
      cases b with
      | mk lb mb hb =>
          simp only at hlen
          subst hlen
          have : ma = mb := Nat.eq_of_testBit_eq htest
          subst this
          rfl

@[simp] theorem test_ofPred
    (n : Nat) (p : Nat → Bool) (i : Nat) :
    (ofPred n p).test i = (decide (i < n) && p i) :=
  testBit_maskOf p n i

/-- The list has the positions of the bits that are set. -/
theorem mem_toList
    {b : Bits} {i : Nat} :
    i ∈ b.toList ↔ b.test i = true := by
  simp only [toList, List.mem_filter, List.mem_range]
  constructor
  · exact fun h => h.2
  · intro h
    refine ⟨?_, h⟩
    apply Nat.lt_of_not_le
    intro hle
    rw [test_eq_false_of_length_le hle] at h
    exact Bool.noConfusion h

end Bits

end DefUse
