/-
What `String::from_utf8` reads is what the text is written as
(`bytes_of_fromUtf8`), and what is written as a text reads back as it
(`fromUtf8_bytes`).
-/
import NekoGuard.Std.Utf8

namespace NekoGuard.Utf8

variable {b c d e : UInt8} {rest tail bs : Bytes} {n : Nat} {x : Char}

/-- The bounds of a byte, for arithmetic. -/
theorem eq_ofNat (h : n = b.toNat) : UInt8.ofNat n = b := by
  rw [h, UInt8.ofNat_toNat]

/-! ## One character -/

theorem encode_one (hb : b.toNat < 0x80) : String.utf8EncodeChar (Char.ofNat b.toNat) = [b] := by
  have hval := toNat_ofNat_valid (n := b.toNat) (.inl (by omega))
  have hle : b.toNat ≤ 0x7f := by omega
  unfold String.utf8EncodeChar
  simp only [hval, hle, if_true]
  rw [eq_ofNat rfl]

theorem encode_two (hb : within 0xc2 0xdf b = true) (hc : isCont c = true) :
    String.utf8EncodeChar (Char.ofNat ((b.toNat % 32) * 64 + low c)) = [b, c] := by
  obtain ⟨hblo, hbhi⟩ := within_iff.mp hb
  obtain ⟨hclo, hchi⟩ := within_iff.mp hc
  unfold low
  generalize hn : (b.toNat % 32) * 64 + c.toNat % 64 = n
  have hval := toNat_ofNat_valid (n := n) (.inl (by omega))
  have hone : ¬n ≤ 0x7f := by omega
  have htwo : n ≤ 0x7ff := by omega
  unfold String.utf8EncodeChar
  simp only [hval, hone, htwo, if_true, if_false]
  rw [eq_ofNat (b := b) (by omega), eq_ofNat (b := c) (by omega)]

theorem bounds_of_three (h : within (secondOfThree b).1 (secondOfThree b).2 c = true) :
    0x80 ≤ c.toNat ∧ c.toNat ≤ 0xbf ∧ (b.toNat = 0xe0 → 0xa0 ≤ c.toNat) ∧ (b.toNat = 0xed → c.toNat ≤ 0x9f) := by
  obtain ⟨hlo, hhi⟩ := within_iff.mp h
  unfold secondOfThree at hlo hhi
  by_cases hfirst : b = 0xe0
  · have hb : b.toNat = 0xe0 := by rw [hfirst]; rfl
    rw [if_pos hfirst] at hlo hhi
    omega
  · have hfirst' : b.toNat ≠ 0xe0 := fun heq => hfirst (UInt8.toNat_inj.mp heq)
    rw [if_neg hfirst] at hlo hhi
    by_cases hlast : b = 0xed
    · rw [if_pos hlast] at hlo hhi
      omega
    · have hlast' : b.toNat ≠ 0xed := fun heq => hlast (UInt8.toNat_inj.mp heq)
      rw [if_neg hlast] at hlo hhi
      omega

/-- A sequence of three is no shorter form, and no surrogate. -/
theorem encode_three (hb : within 0xe0 0xef b = true)
    (hc : within (secondOfThree b).1 (secondOfThree b).2 c = true) (hd : isCont d = true) :
    String.utf8EncodeChar (Char.ofNat ((b.toNat % 16) * 4096 + low c * 64 + low d)) = [b, c, d] := by
  obtain ⟨hblo, hbhi⟩ := within_iff.mp hb
  obtain ⟨hdlo, hdhi⟩ := within_iff.mp hd
  have hbounds := bounds_of_three hc
  unfold low
  generalize hn : (b.toNat % 16) * 4096 + c.toNat % 64 * 64 + d.toNat % 64 = n
  have hvalid : n.isValidChar := by
    unfold Nat.isValidChar
    omega
  have hval := toNat_ofNat_valid hvalid
  have hone : ¬n ≤ 0x7f := by omega
  have htwo : ¬n ≤ 0x7ff := by omega
  have hthree : n ≤ 0xffff := by omega
  unfold String.utf8EncodeChar
  simp only [hval, hone, htwo, hthree, if_true, if_false]
  rw [eq_ofNat (b := b) (by omega), eq_ofNat (b := c) (by omega), eq_ofNat (b := d) (by omega)]

theorem bounds_of_four (h : within (secondOfFour b).1 (secondOfFour b).2 c = true) :
    0x80 ≤ c.toNat ∧ c.toNat ≤ 0xbf ∧ (b.toNat = 0xf0 → 0x90 ≤ c.toNat) ∧ (b.toNat = 0xf4 → c.toNat ≤ 0x8f) := by
  obtain ⟨hlo, hhi⟩ := within_iff.mp h
  unfold secondOfFour at hlo hhi
  by_cases hfirst : b = 0xf0
  · have hb : b.toNat = 0xf0 := by rw [hfirst]; rfl
    rw [if_pos hfirst] at hlo hhi
    omega
  · have hfirst' : b.toNat ≠ 0xf0 := fun heq => hfirst (UInt8.toNat_inj.mp heq)
    rw [if_neg hfirst] at hlo hhi
    by_cases hlast : b = 0xf4
    · rw [if_pos hlast] at hlo hhi
      omega
    · have hlast' : b.toNat ≠ 0xf4 := fun heq => hlast (UInt8.toNat_inj.mp heq)
      rw [if_neg hlast] at hlo hhi
      omega

theorem encode_four (hb : within 0xf0 0xf4 b = true)
    (hc : within (secondOfFour b).1 (secondOfFour b).2 c = true) (hd : isCont d = true) (he : isCont e = true) :
    String.utf8EncodeChar (Char.ofNat ((b.toNat % 8) * 262144 + low c * 4096 + low d * 64 + low e)) =
      [b, c, d, e] := by
  obtain ⟨hblo, hbhi⟩ := within_iff.mp hb
  obtain ⟨hdlo, hdhi⟩ := within_iff.mp hd
  obtain ⟨helo, hehi⟩ := within_iff.mp he
  have hbounds := bounds_of_four hc
  unfold low
  generalize hn : (b.toNat % 8) * 262144 + c.toNat % 64 * 4096 + d.toNat % 64 * 64 + e.toNat % 64 = n
  have hvalid : n.isValidChar := by
    unfold Nat.isValidChar
    omega
  have hval := toNat_ofNat_valid hvalid
  have hone : ¬n ≤ 0x7f := by omega
  have htwo : ¬n ≤ 0x7ff := by omega
  have hthree : ¬n ≤ 0xffff := by omega
  unfold String.utf8EncodeChar
  simp only [hval, hone, htwo, hthree, if_false]
  rw [eq_ofNat (b := b) (by omega), eq_ofNat (b := c) (by omega), eq_ofNat (b := d) (by omega),
    eq_ofNat (b := e) (by omega)]

/-- **A sequence is the encoding of its character.** -/
theorem encode_of_next (h : next b rest = (some x, tail)) : b :: rest = String.utf8EncodeChar x ++ tail := by
  unfold next at h
  repeat' split at h
  all_goals cases h
  · rw [encode_one ‹_›]
    rfl
  · rw [encode_two ‹_› ‹_›]
    rfl
  · rw [encode_three ‹_› ‹_› ‹_›]
    rfl
  · rw [encode_four ‹_› ‹_› ‹_› ‹_›]
    rfl

/-! ## What is encoded reads back -/

theorem within_of {lo hi : Nat} (hlo : lo ≤ b.toNat) (hhi : b.toNat ≤ hi) : within lo hi b = true :=
  within_iff.mpr ⟨hlo, hhi⟩

theorem toNat_ofNat_lt (h : n < 0x100) : (UInt8.ofNat n).toNat = n := UInt8.toNat_ofNat_of_lt' h

theorem next_two (hb : within 0xc2 0xdf b = true) (hc : isCont c = true) (rest : Bytes) :
    next b (c :: rest) = (some (Char.ofNat ((b.toNat % 32) * 64 + low c)), rest) := by
  have hone : ¬b.toNat < 0x80 := by
    have := within_iff.mp hb
    omega
  simp only [next, hone, hb, hc, if_true, if_false]

theorem not_within {lo hi : Nat} (h : b.toNat < lo ∨ hi < b.toNat) : within lo hi b = false := by
  rw [Bool.eq_false_iff]
  intro hw
  have := within_iff.mp hw
  omega

theorem next_three (hb : within 0xe0 0xef b = true)
    (hc : within (secondOfThree b).1 (secondOfThree b).2 c = true) (hd : isCont d = true) (rest : Bytes) :
    next b (c :: d :: rest) = (some (Char.ofNat ((b.toNat % 16) * 4096 + low c * 64 + low d)), rest) := by
  have hbounds := within_iff.mp hb
  have hone : ¬b.toNat < 0x80 := by omega
  have htwo : within 0xc2 0xdf b = false := not_within (by omega)
  simp only [next, hone, htwo, hb, hc, hd, if_true, if_false, Bool.false_eq_true]

theorem next_four (hb : within 0xf0 0xf4 b = true)
    (hc : within (secondOfFour b).1 (secondOfFour b).2 c = true) (hd : isCont d = true) (he : isCont e = true)
    (rest : Bytes) :
    next b (c :: d :: e :: rest) =
      (some (Char.ofNat ((b.toNat % 8) * 262144 + low c * 4096 + low d * 64 + low e)), rest) := by
  have hbounds := within_iff.mp hb
  have hone : ¬b.toNat < 0x80 := by omega
  have htwo : within 0xc2 0xdf b = false := not_within (by omega)
  have hthree : within 0xe0 0xef b = false := not_within (by omega)
  simp only [next, hone, htwo, hthree, hb, hc, hd, he, if_true, if_false, Bool.false_eq_true]

theorem secondOfThree_of (hlo : 0x80 ≤ c.toNat) (hhi : c.toNat ≤ 0xbf) (hfirst : b.toNat = 0xe0 → 0xa0 ≤ c.toNat)
    (hlast : b.toNat = 0xed → c.toNat ≤ 0x9f) : within (secondOfThree b).1 (secondOfThree b).2 c = true := by
  unfold secondOfThree
  split
  · next h => exact within_of (hfirst (by rw [h]; rfl)) hhi
  · split
    · next h => exact within_of hlo (hlast (by rw [h]; rfl))
    · exact within_of hlo hhi

theorem secondOfFour_of (hlo : 0x80 ≤ c.toNat) (hhi : c.toNat ≤ 0xbf) (hfirst : b.toNat = 0xf0 → 0x90 ≤ c.toNat)
    (hlast : b.toNat = 0xf4 → c.toNat ≤ 0x8f) : within (secondOfFour b).1 (secondOfFour b).2 c = true := by
  unfold secondOfFour
  split
  · next h => exact within_of (hfirst (by rw [h]; rfl)) hhi
  · split
    · next h => exact within_of hlo (hlast (by rw [h]; rfl))
    · exact within_of hlo hhi

/-- **The sequence of a character reads back**, whatever follows it. -/
theorem next_encode (x : Char) (rest : Bytes) :
    ∃ b tail, String.utf8EncodeChar x = b :: tail ∧ next b (tail ++ rest) = (some x, rest) := by
  have hvalid : x.val.toNat < 0xd800 ∨ 0xdfff < x.val.toNat ∧ x.val.toNat < 0x110000 := x.valid
  have hx : Char.ofNat x.val.toNat = x := Char.ofNat_toNat x
  unfold String.utf8EncodeChar
  generalize x.val.toNat = v at hvalid hx
  simp only []
  by_cases hone : v ≤ 0x7f
  · rw [if_pos hone]
    refine ⟨_, _, rfl, ?_⟩
    have hb := toNat_ofNat_lt (n := v) (by omega)
    rw [List.nil_append, next_ascii (by omega), hb, hx]
  rw [if_neg hone]
  by_cases htwo : v ≤ 0x7ff
  · rw [if_pos htwo]
    refine ⟨_, _, rfl, ?_⟩
    have hb := toNat_ofNat_lt (n := v / 64 % 0x20 + 0xc0) (by omega)
    have hc := toNat_ofNat_lt (n := v % 0x40 + 0x80) (by omega)
    have hsum : (v / 64 % 0x20 + 0xc0) % 32 * 64 + (v % 0x40 + 0x80) % 64 = v := by omega
    rw [List.cons_append, List.nil_append, next_two (within_of (by omega) (by omega)) (within_of (by omega) (by omega)),
      low, hb, hc, hsum, hx]
  rw [if_neg htwo]
  by_cases hthree : v ≤ 0xffff
  · rw [if_pos hthree]
    refine ⟨_, _, rfl, ?_⟩
    have hb := toNat_ofNat_lt (n := v / 4096 % 0x10 + 0xe0) (by omega)
    have hc := toNat_ofNat_lt (n := v / 64 % 0x40 + 0x80) (by omega)
    have hd := toNat_ofNat_lt (n := v % 0x40 + 0x80) (by omega)
    have hsum : (v / 4096 % 0x10 + 0xe0) % 16 * 4096 + (v / 64 % 0x40 + 0x80) % 64 * 64 + (v % 0x40 + 0x80) % 64 = v := by
      omega
    rw [List.cons_append, List.cons_append, List.nil_append, next_three (within_of (by omega) (by omega))
      (secondOfThree_of (by omega) (by omega) (by omega) (by omega)) (within_of (by omega) (by omega)), low, low, hb,
      hc, hd, hsum, hx]
  · rw [if_neg hthree]
    refine ⟨_, _, rfl, ?_⟩
    have hb := toNat_ofNat_lt (n := v / 262144 % 0x08 + 0xf0) (by omega)
    have hc := toNat_ofNat_lt (n := v / 4096 % 0x40 + 0x80) (by omega)
    have hd := toNat_ofNat_lt (n := v / 64 % 0x40 + 0x80) (by omega)
    have he := toNat_ofNat_lt (n := v % 0x40 + 0x80) (by omega)
    have hsum : (v / 262144 % 0x08 + 0xf0) % 8 * 262144 + (v / 4096 % 0x40 + 0x80) % 64 * 4096 +
        (v / 64 % 0x40 + 0x80) % 64 * 64 + (v % 0x40 + 0x80) % 64 = v := by
      omega
    rw [List.cons_append, List.cons_append, List.cons_append, List.nil_append,
      next_four (within_of (by omega) (by omega)) (secondOfFour_of (by omega) (by omega) (by omega) (by omega))
        (within_of (by omega) (by omega)) (within_of (by omega) (by omega)), low, low, low, hb, hc, hd, he, hsum, hx]

/-! ## Texts -/

/-- **What is read was written.** -/
theorem bytes_of_fromUtf8 {s : Str} (h : fromUtf8 bs = some s) : Text.bytes s = bs := by
  unfold fromUtf8 at h
  induction hn : bs.length using Nat.strong_induction_on generalizing bs s with
  | _ n ih =>
    cases bs with
    | nil =>
      cases h
      rfl
    | cons b rest =>
      rw [List.length_cons, chunks, List.mapM_cons] at h
      simp only [id, Option.bind_eq_bind, Option.bind_eq_some_iff, Option.pure_def, Option.some.injEq] at h
      obtain ⟨x, hx, t, ht, rfl⟩ := h
      have hsuffix := next_suffix b rest
      have hle := hsuffix.length_le
      rw [chunks_eq hle] at ht
      have htail := ih _ (by simp only [List.length_cons] at hn; omega) ht rfl
      have hsplit := encode_of_next (Prod.ext hx rfl)
      rw [hsplit]
      exact congrArg (String.utf8EncodeChar x ++ ·) htail

theorem chunks_bytes (s : Str) : chunks (Text.bytes s).length (Text.bytes s) = s.map some := by
  induction s with
  | nil => rfl
  | cons x s ih =>
    obtain ⟨b, tail, henc, hnext⟩ := next_encode x (Text.bytes s)
    have hcons : Text.bytes (x :: s) = b :: (tail ++ Text.bytes s) := by
      rw [Text.bytes, List.flatMap_cons, henc]
      rfl
    rw [hcons, List.length_cons, chunks, hnext, List.map_cons]
    simp only []
    rw [chunks_eq (by rw [List.length_append]; omega), ih]

/-- **What is written is read.** -/
theorem fromUtf8_bytes (s : Str) : fromUtf8 (Text.bytes s) = some s := by
  unfold fromUtf8
  rw [chunks_bytes]
  induction s with
  | nil => rfl
  | cons x s ih => simp [List.mapM_cons, ih]

/-! ## ASCII among the rest -/

theorem fromUtf8Lossy_split {x : UInt8} (hx : x.toNat < 0x80) (bs more : Bytes) :
    fromUtf8Lossy (bs ++ x :: more) = fromUtf8Lossy bs ++ Char.ofNat x.toNat :: fromUtf8Lossy more := by
  rw [fromUtf8Lossy_append hx, fromUtf8Lossy_cons, next_ascii hx]
  rfl

theorem mem_fromUtf8Lossy {x : UInt8} (hx : x.toNat < 0x80) (h : x ∈ bs) : Char.ofNat x.toNat ∈ fromUtf8Lossy bs := by
  obtain ⟨front, back, rfl⟩ := List.append_of_mem h
  rw [fromUtf8Lossy_split hx]
  exact List.mem_append_right _ List.mem_cons_self

/-- An ASCII character of a lossy text was a byte. -/
theorem mem_of_mem_fromUtf8Lossy {c : Char} (hc : 0 < c.toNat ∧ c.toNat < 0x80) (h : c ∈ fromUtf8Lossy bs) :
    UInt8.ofNat c.toNat ∈ bs := by
  obtain ⟨front, back, hsplit⟩ := List.append_of_mem h
  induction front generalizing bs with
  | nil =>
    obtain ⟨b, rest, rfl, hb, -⟩ := exists_of_fromUtf8Lossy hsplit hc
    rw [← hb, UInt8.ofNat_toNat]
    exact List.mem_cons_self
  | cons d front ih =>
    cases bs with
    | nil => cases hsplit
    | cons b rest =>
      rw [fromUtf8Lossy_cons, List.cons_append] at hsplit
      obtain ⟨-, htail⟩ := List.cons.inj hsplit
      have hmem : c ∈ fromUtf8Lossy (next b rest).2 := by
        rw [htail]
        exact List.mem_append_right _ List.mem_cons_self
      exact List.mem_cons_of_mem b ((next_suffix b rest).subset (ih hmem htail))

theorem toNat_ofNat_high {k : Nat} (hlo : 0x80 ≤ k) (hhi : k < 0x100) : 0x80 ≤ (UInt8.ofNat k).toNat := by
  rw [UInt8.toNat_ofNat_of_lt' hhi]
  exact hlo

/-- No byte of a longer sequence is ASCII. -/
theorem le_of_mem_encode {c : Char} (hc : 0x7f < c.val.toNat) {x : UInt8} (hx : x ∈ String.utf8EncodeChar c) :
    0x80 ≤ x.toNat := by
  unfold String.utf8EncodeChar at hx
  simp only [if_neg (Nat.not_le_of_lt hc)] at hx
  split at hx
  · simp only [List.mem_cons, List.not_mem_nil, or_false] at hx
    rcases hx with rfl | rfl <;> exact toNat_ofNat_high (by omega) (by omega)
  · split at hx
    · simp only [List.mem_cons, List.not_mem_nil, or_false] at hx
      rcases hx with rfl | rfl | rfl <;> exact toNat_ofNat_high (by omega) (by omega)
    · simp only [List.mem_cons, List.not_mem_nil, or_false] at hx
      rcases hx with rfl | rfl | rfl | rfl <;> exact toNat_ofNat_high (by omega) (by omega)

/-- An ASCII byte of a text is a character of it. -/
theorem mem_of_mem_bytes {s : Str} {x : UInt8} (hx : x.toNat < 0x80) (h : x ∈ Text.bytes s) :
    Char.ofNat x.toNat ∈ s := by
  obtain ⟨c, hc, hmem⟩ := List.mem_flatMap.mp h
  have hle : c.val.toNat ≤ 0x7f := by
    by_contra hlt
    have hhigh := le_of_mem_encode (Nat.lt_of_not_le hlt) hmem
    omega
  unfold String.utf8EncodeChar at hmem
  simp only [if_pos hle, List.mem_singleton] at hmem
  have hval : x.toNat = c.toNat := by
    rw [hmem]
    exact UInt8.toNat_ofNat_of_lt' (Nat.lt_of_le_of_lt hle (by decide))
  rw [hval, Char.ofNat_toNat]
  exact hc

end NekoGuard.Utf8
