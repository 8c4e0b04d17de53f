import DefUse.Text.Utf8

/-!
# Characters come back from their octets

**Method.** A character takes one to four octets.  The first one tells how many there are, and the
numbers in all of them are digits of the character: of base 64, but for the first one.

**Results.**
* `encode_eq`: the octets of a text are those of its characters.
* `first?_utf8EncodeChar`: the octets of a character are read as the character.
* `lossy_encode`: the octets of a text are read as its characters.
-/

namespace DefUse
namespace Text
namespace Utf8

section Octets

theorem loop_eq_drop
    (bs : ByteArray) (i : Nat) (front : List UInt8) :
    ByteArray.toList.loop bs i front = front.reverse ++ bs.data.toList.drop i := by
  have hsize : bs.data.toList.length = bs.size := by rw [Array.length_toList, bs.size_data]
  fun_induction ByteArray.toList.loop bs i front with
  | case1 i front hi ih =>
      have hlength : i < bs.data.toList.length := hsize ▸ hi
      have hget : bs.get! i = bs.data.toList[i] := by
        rw [Array.getElem_toList]
        exact getElem!_pos bs.data i hi
      rw [ih, hget, List.drop_eq_getElem_cons hlength, List.reverse_cons, List.append_assoc,
        List.singleton_append]
  | case2 i front hi =>
      rw [List.drop_eq_nil_of_le (by omega), List.append_nil]

theorem toList_eq
    (bs : ByteArray) :
    bs.toList = bs.data.toList :=
  loop_eq_drop bs 0 []

/-- The octets of a text are those of its characters. -/
theorem encode_eq
    (s : String) :
    encode s = s.toList.flatMap String.utf8EncodeChar := by
  have hs : s.toByteArray = s.toList.utf8Encode := by
    rw [← String.toByteArray_ofList, String.ofList_toList]
  rw [encode, String.toUTF8_eq_toByteArray, hs, toList_eq]
  exact List.toList_data_toByteArray

theorem length_encode
    (s : String) :
    (encode s).length = s.utf8ByteSize := by
  rw [encode, String.toUTF8_eq_toByteArray, toList_eq, Array.length_toList]
  rfl

end Octets

section Character

variable {a : UInt8} {m x y z : Nat}

/-- A first octet of two. -/
theorem lead_two
    (hm : m < 0x1e) :
    lead (UInt8.ofNat (0xc2 + m)) = some (0x80, 0xbf, 1) := by
  revert m
  decide

/-- A first octet of three. -/
theorem lead_three
    (hm : m < 0x10) :
    lead (UInt8.ofNat (0xe0 + m)) =
      some (if m = 0 then 0xa0 else 0x80, if m = 0xd then 0x9f else 0xbf, 2) := by
  revert m
  decide

/-- A first octet of four. -/
theorem lead_four
    (hm : m < 5) :
    lead (UInt8.ofNat (0xf0 + m)) =
      some (if m = 0 then 0x90 else 0x80, if m = 4 then 0x8f else 0xbf, 3) := by
  revert m
  decide

/-- An octet behind the first one, which holds a digit of base 64. -/
def tailOctet (digit : Nat) : UInt8 := UInt8.ofNat (digit + 0x80)

theorem toNat_tailOctet
    (hm : m < 0x40) :
    (tailOctet m).toNat = m + 0x80 :=
  UInt8.toNat_ofNat_of_lt' (show m + 0x80 < 0x100 by omega)

theorem le_tailOctet
    (hx : x < 0x40)
    (h : m ≤ x) :
    tailOctet m ≤ tailOctet x := by
  rw [UInt8.le_iff_toNat_le, toNat_tailOctet (Nat.lt_of_le_of_lt h hx), toNat_tailOctet hx]
  exact Nat.add_le_add_right h 0x80

theorem tailOctet_within
    (hm : m < 0x40) :
    tailOctet 0 ≤ tailOctet m ∧ tailOctet m ≤ tailOctet 0x3f :=
  ⟨le_tailOctet hm (Nat.zero_le m), le_tailOctet (Nat.lt_succ_self 0x3f) (Nat.le_of_lt_succ hm)⟩

theorem isTail_tailOctet
    (hm : m < 0x40) :
    isTail (tailOctet m) = true := by
  obtain ⟨hlo, hhi⟩ := tailOctet_within hm
  exact Bool.and_eq_true_iff.mpr ⟨decide_eq_true hlo, decide_eq_true hhi⟩

theorem payload_tailOctet
    (hm : m < 0x40) :
    payload (tailOctet m) = m := by
  rw [payload, toNat_tailOctet hm]
  omega

theorem first?_of_lead
    {lo hi second : UInt8} {n : Nat} {tail rest : List UInt8}
    (ha : ¬ a < 0x80)
    (hlead : lead a = some (lo, hi, n))
    (hlength : (second :: tail).length = n)
    (hlo : lo ≤ second)
    (hhi : second ≤ hi)
    (htail : (second :: tail).all isTail = true) :
    first? a (second :: tail ++ rest) =
      some (Char.ofNat (scalar a n (second :: tail)), n) := by
  rw [first?, if_neg ha, hlead]
  simp only [Option.bind_eq_bind, Option.bind_some, List.take_left' hlength, List.head?_cons,
    hlength, hlo, hhi, htail, decide_true, Bool.and_self, if_true]

theorem not_lt_lead
    (hm : 0x80 ≤ m)
    (hm' : m < 0x100) :
    ¬ UInt8.ofNat m < 0x80 := by
  rw [UInt8.lt_iff_toNat_lt, UInt8.toNat_ofNat_of_lt' hm']
  exact Nat.not_lt.mpr hm

variable {rest : List UInt8}

theorem first?_two
    (hm : m < 0x1e)
    (hx : x < 0x40) :
    first? (UInt8.ofNat (0xc2 + m)) ([tailOctet x] ++ rest) =
      some (Char.ofNat (0x40 * (m + 2) + x), 1) := by
  obtain ⟨hlo, hhi⟩ := tailOctet_within hx
  rw [first?_of_lead (not_lt_lead (by omega) (by omega)) (lead_two hm) rfl hlo hhi
    (by simp [isTail_tailOctet hx])]
  simp only [scalar, List.foldl_cons, List.foldl_nil, payload_tailOctet hx,
    UInt8.toNat_ofNat_of_lt' (show 0xc2 + m < 0x100 by omega)]
  rw [show (0xc2 + m) % Nat.pow 2 (6 - 1) = m + 2 by change (0xc2 + m) % 0x20 = _; omega]

theorem first?_three
    (hm : m < 0x10)
    (hx : x < 0x40)
    (hy : y < 0x40)
    (hlow : m = 0 → 0x20 ≤ x)
    (hhigh : m = 0xd → x < 0x20) :
    first? (UInt8.ofNat (0xe0 + m)) ([tailOctet x, tailOctet y] ++ rest) =
      some (Char.ofNat (0x40 * (0x40 * m + x) + y), 2) := by
  rw [first?_of_lead (not_lt_lead (by omega) (by omega)) (lead_three hm) rfl]
  · simp only [scalar, List.foldl_cons, List.foldl_nil, payload_tailOctet hx,
      payload_tailOctet hy, UInt8.toNat_ofNat_of_lt' (show 0xe0 + m < 0x100 by omega)]
    rw [show (0xe0 + m) % Nat.pow 2 (6 - 2) = m by change (0xe0 + m) % 0x10 = _; omega]
  · split
    · exact @le_tailOctet 0x20 x hx (hlow ‹_›)
    · exact (tailOctet_within hx).1
  · split
    · exact @le_tailOctet x 0x1f (by omega) (Nat.le_of_lt_succ (hhigh ‹_›))
    · exact (tailOctet_within hx).2
  · simp [isTail_tailOctet hx, isTail_tailOctet hy]

theorem first?_four
    (hm : m < 5)
    (hx : x < 0x40)
    (hy : y < 0x40)
    (hz : z < 0x40)
    (hlow : m = 0 → 0x10 ≤ x)
    (hhigh : m = 4 → x < 0x10) :
    first? (UInt8.ofNat (0xf0 + m)) ([tailOctet x, tailOctet y, tailOctet z] ++ rest) =
      some (Char.ofNat (0x40 * (0x40 * (0x40 * m + x) + y) + z), 3) := by
  rw [first?_of_lead (not_lt_lead (by omega) (by omega)) (lead_four hm) rfl]
  · simp only [scalar, List.foldl_cons, List.foldl_nil, payload_tailOctet hx,
      payload_tailOctet hy, payload_tailOctet hz,
      UInt8.toNat_ofNat_of_lt' (show 0xf0 + m < 0x100 by omega)]
    rw [show (0xf0 + m) % Nat.pow 2 (6 - 3) = m by change (0xf0 + m) % 8 = _; omega]
  · split
    · exact @le_tailOctet 0x10 x hx (hlow ‹_›)
    · exact (tailOctet_within hx).1
  · split
    · exact @le_tailOctet x 0xf (by omega) (Nat.le_of_lt_succ (hhigh ‹_›))
    · exact (tailOctet_within hx).2
  · simp [isTail_tailOctet hx, isTail_tailOctet hy, isTail_tailOctet hz]

/-- The octets of a character are read as the character. -/
theorem first?_utf8EncodeChar
    (c : Char) (rest : List UInt8) :
    ∃ a tail, String.utf8EncodeChar c = a :: tail ∧
      first? a (tail ++ rest) = some (c, tail.length) := by
  obtain ⟨v, hv⟩ : ∃ v, v = c.val.toNat := ⟨_, rfl⟩
  have hvalid : v < 0xd800 ∨ 0xdfff < v ∧ v < 0x110000 := by
    rw [hv]
    exact c.valid
  have hc : ∀ {n : Nat}, n = v → Char.ofNat n = c := by
    rintro n rfl
    rw [hv]
    exact Char.ofNat_toNat c
  unfold String.utf8EncodeChar
  simp only [← hv]
  -- the cases are the numbers of octets
  split
  · refine ⟨_, [], rfl, ?_⟩
    have hlt : UInt8.ofNat v < 0x80 := by
      rw [UInt8.lt_iff_toNat_lt, UInt8.toNat_ofNat_of_lt' (show v < 0x100 by omega)]
      exact Nat.lt_succ_of_le ‹_›
    rw [first?, if_pos hlt, UInt8.toNat_ofNat_of_lt' (show v < 0x100 by omega), hc rfl]
    rfl
  split
  · have hlead : v / 64 % 32 + 0xc0 = 0xc2 + (v / 64 - 2) := by omega
    have hread := @first?_two (v / 64 - 2) (v % 64) rest (by omega) (by omega)
    rw [hc (by omega), ← hlead] at hread
    exact ⟨_, _, rfl, hread⟩
  split
  · have hlead : v / 4096 % 16 + 0xe0 = 0xe0 + v / 4096 := by omega
    have hread := @first?_three (v / 4096) (v / 64 % 64) (v % 64) rest (by omega) (by omega)
      (by omega) (by omega) (by omega)
    rw [hc (by omega), ← hlead] at hread
    exact ⟨_, _, rfl, hread⟩
  · have hlead : v / 262144 % 8 + 0xf0 = 0xf0 + v / 262144 := by omega
    have hread := @first?_four (v / 262144) (v / 4096 % 64) (v / 64 % 64) (v % 64) rest (by omega)
      (by omega) (by omega) (by omega) (by omega) (by omega)
    rw [hc (by omega), ← hlead] at hread
    exact ⟨_, _, rfl, hread⟩

end Character

theorem decode_encode
    (cs : List Char) :
    decode (cs.flatMap String.utf8EncodeChar) = cs.map Piece.char := by
  induction cs with
  | nil => rw [List.flatMap_nil, decode, List.map_nil]
  | cons c cs ih =>
      obtain ⟨a, tail, hc, hfirst⟩ := first?_utf8EncodeChar c (cs.flatMap String.utf8EncodeChar)
      rw [List.flatMap_cons, hc, List.cons_append, decode, hfirst]
      simp only [List.drop_left, ih, List.map_cons]

/-- The octets of a text are read as its characters. -/
theorem lossy_encode
    (s : String) :
    lossy (encode s) = s.toList := by
  rw [lossy, encode_eq, decode_encode, List.map_map]
  exact List.map_id s.toList

end Utf8
end Text
end DefUse
