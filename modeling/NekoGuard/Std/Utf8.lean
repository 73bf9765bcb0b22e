/-
UTF-8 decoding: the strict `String::from_utf8` and the lossy
`String::from_utf8_lossy`, which replaces each maximal ill-formed prefix by
one U+FFFD. Both read the bytes chunk by chunk, as `Utf8Chunks` does.
-/
import NekoGuard.Std.Text

namespace NekoGuard.Utf8

/-- A continuation byte within the bounds the byte before it leaves. -/
def within (lo hi : Nat) (b : UInt8) : Bool := lo ≤ b.toNat && b.toNat ≤ hi

def isCont (b : UInt8) : Bool := within 0x80 0xbf b

/-- The low six bits of a continuation byte. -/
def low (b : UInt8) : Nat := b.toNat % 64

/-- The bounds of the second byte of a sequence of three. -/
def secondOfThree (b : UInt8) : Nat × Nat :=
  if b = 0xe0 then (0xa0, 0xbf) else if b = 0xed then (0x80, 0x9f) else (0x80, 0xbf)

/-- The bounds of the second byte of a sequence of four. -/
def secondOfFour (b : UInt8) : Nat × Nat :=
  if b = 0xf0 then (0x90, 0xbf) else if b = 0xf4 then (0x80, 0x8f) else (0x80, 0xbf)

/-- The sequence that starts with `b`: the character, or `none` where it is
ill-formed, and the bytes after it. -/
def next (b : UInt8) (rest : Bytes) : Option Char × Bytes :=
  if b.toNat < 0x80 then (some (Char.ofNat b.toNat), rest)
  else if within 0xc2 0xdf b then
    match rest with
    | c :: r =>
      if isCont c then (some (Char.ofNat ((b.toNat % 32) * 64 + low c)), r) else (none, rest)
    | [] => (none, [])
  else if within 0xe0 0xef b then
    match rest with
    | c :: d :: r =>
      if within (secondOfThree b).1 (secondOfThree b).2 c then
        if isCont d then
          (some (Char.ofNat ((b.toNat % 16) * 4096 + low c * 64 + low d)), r)
        else (none, d :: r)
      else (none, rest)
    | [c] => if within (secondOfThree b).1 (secondOfThree b).2 c then (none, []) else (none, rest)
    | [] => (none, [])
  else if within 0xf0 0xf4 b then
    match rest with
    | c :: r =>
      if within (secondOfFour b).1 (secondOfFour b).2 c then
        match r with
        | d :: r' =>
          if isCont d then
            match r' with
            | e :: r'' =>
              if isCont e then
                (some (Char.ofNat ((b.toNat % 8) * 262144 + low c * 4096 + low d * 64 + low e)), r'')
              else (none, r')
            | [] => (none, [])
          else (none, r)
        | [] => (none, [])
      else (none, rest)
    | [] => (none, [])
  else (none, rest)

/-- The chunks of at most `n` bytes: each a character or an ill-formed prefix. -/
def chunks : Nat → Bytes → List (Option Char)
  | 0, _ => []
  | _ + 1, [] => []
  | n + 1, b :: rest => (next b rest).1 :: chunks n (next b rest).2

/-- `String::from_utf8_lossy`. -/
def fromUtf8Lossy (bs : Bytes) : Str := (chunks bs.length bs).map fun c => c.getD '\uFFFD'

/-- `String::from_utf8`. -/
def fromUtf8 (bs : Bytes) : Option Str := (chunks bs.length bs).mapM id

theorem next_ascii {b : UInt8} {rest : Bytes} (h : b.toNat < 0x80) :
    next b rest = (some (Char.ofNat b.toNat), rest) := by
  simp [next, h]

/-- ASCII bytes are their own characters. -/
theorem chunks_ascii : ∀ {bs : Bytes}, (∀ b ∈ bs, b.toNat < 0x80) →
    chunks bs.length bs = bs.map fun b => some (Char.ofNat b.toNat)
  | [], _ => rfl
  | b :: bs, h => by
    have hb := h b (by simp)
    simp only [List.length_cons, chunks, next_ascii hb, List.map_cons]
    rw [chunks_ascii fun c hc => h c (by simp [hc])]

/-! ## Lossy texts -/

variable {b x : UInt8} {bs rest : Bytes}

/-- What is left of a text is its end. -/
theorem next_suffix (b : UInt8) (rest : Bytes) : (next b rest).2 <:+ rest := by
  unfold next
  repeat' split
  all_goals
    first
    | exact List.suffix_refl _
    | exact List.nil_suffix
    | (simp only [List.suffix_cons_iff]; grind)

theorem not_within_ascii (hx : x.toNat < 0x80) {lo hi : Nat} (hlo : 0x80 ≤ lo) : within lo hi x = false := by
  unfold within
  simp only [Bool.and_eq_false_imp, decide_eq_true_eq, decide_eq_false_iff_not]
  omega

theorem secondOfThree_le (b : UInt8) : 0x80 ≤ (secondOfThree b).1 := by
  unfold secondOfThree
  split
  · simp
  · split <;> simp

theorem secondOfFour_le (b : UInt8) : 0x80 ≤ (secondOfFour b).1 := by
  unfold secondOfFour
  split
  · simp
  · split <;> simp

/-- A sequence does not go on with an ASCII byte. -/
theorem next_append (hx : x.toNat < 0x80) (rest more : Bytes) :
    next b (rest ++ x :: more) = ((next b rest).1, (next b rest).2 ++ x :: more) := by
  have hcont : isCont x = false := not_within_ascii hx (Nat.le_refl _)
  have hthree := @not_within_ascii x hx (secondOfThree b).1 (secondOfThree b).2 (secondOfThree_le b)
  have hfour := @not_within_ascii x hx (secondOfFour b).1 (secondOfFour b).2 (secondOfFour_le b)
  unfold next
  rcases rest with _ | ⟨c, _ | ⟨d, _ | ⟨e, rest⟩⟩⟩
  all_goals grind

theorem chunks_eq {n : Nat} (hn : bs.length ≤ n) : chunks n bs = chunks bs.length bs := by
  have hmore : ∀ {k n : Nat} {bs : Bytes}, bs.length ≤ k → bs.length ≤ n → chunks n bs = chunks k bs := by
    intro k
    induction k with
    | zero =>
      intro n bs hk _
      obtain rfl : bs = [] := List.length_eq_zero_iff.mp (by omega)
      cases n <;> rfl
    | succ k ih =>
      intro n bs hk hn
      cases bs with
      | nil => cases n <;> rfl
      | cons b rest =>
        have hlen := (next_suffix b rest).length_le
        simp only [List.length_cons] at hk hn
        obtain ⟨n, rfl⟩ : ∃ m, n = m + 1 := ⟨n - 1, by omega⟩
        simp only [chunks]
        rw [ih (by omega) (by omega)]
  exact hmore (Nat.le_refl _) hn

theorem fromUtf8Lossy_cons (b : UInt8) (rest : Bytes) :
    fromUtf8Lossy (b :: rest) = (next b rest).1.getD '\uFFFD' :: fromUtf8Lossy (next b rest).2 := by
  have hlen := (next_suffix b rest).length_le
  unfold fromUtf8Lossy
  rw [List.length_cons, chunks, chunks_eq hlen]
  rfl

theorem length_fromUtf8Lossy_le (bs : Bytes) : (fromUtf8Lossy bs).length ≤ bs.length := by
  have hchunks : ∀ (n : Nat) (bs : Bytes), (chunks n bs).length ≤ n := by
    intro n
    induction n with
    | zero => intro bs; simp [chunks]
    | succ n ih =>
      intro bs
      cases bs with
      | nil => simp [chunks]
      | cons b rest =>
        have hrest := ih (next b rest).2
        simp only [chunks, List.length_cons]
        omega
  unfold fromUtf8Lossy
  rw [List.length_map]
  exact hchunks _ _

/-- **An ASCII byte begins anew.** -/
theorem fromUtf8Lossy_append (hx : x.toNat < 0x80) (bs more : Bytes) :
    fromUtf8Lossy (bs ++ x :: more) = fromUtf8Lossy bs ++ fromUtf8Lossy (x :: more) := by
  induction hn : bs.length using Nat.strongRecOn generalizing bs with
  | ind n ih =>
    cases bs with
    | nil => rfl
    | cons b rest =>
      have hlen := (next_suffix b rest).length_le
      rw [List.length_cons] at hn
      rw [List.cons_append, fromUtf8Lossy_cons, next_append hx, fromUtf8Lossy_cons,
        ih (next b rest).2.length (by omega) _ rfl, List.cons_append]

theorem fromUtf8Lossy_ascii (h : ∀ b ∈ bs, b.toNat < 0x80) :
    fromUtf8Lossy bs = bs.map fun b => Char.ofNat b.toNat := by
  unfold fromUtf8Lossy
  rw [chunks_ascii h, List.map_map]
  rfl

theorem bytes_ascii {s : Str} (h : ∀ c ∈ s, c.toNat < 0x80) :
    Text.bytes s = s.map fun c => UInt8.ofNat c.toNat := by
  induction s with
  | nil => rfl
  | cons c s ih =>
    have hc : c.toNat < 0x80 := h c (by simp)
    have hone : String.utf8EncodeChar c = [UInt8.ofNat c.toNat] := by
      have hle : c.toNat ≤ 0x7f := by omega
      simp [String.utf8EncodeChar, hle]
    rw [List.map_cons, ← ih fun d hd => h d (by simp [hd])]
    unfold Text.bytes
    rw [List.flatMap_cons, hone]
    rfl

theorem fromUtf8Lossy_bytes {s : Str} (h : ∀ c ∈ s, c.toNat < 0x80) : fromUtf8Lossy (Text.bytes s) = s := by
  have hbyte : ∀ c ∈ s, (UInt8.ofNat c.toNat).toNat = c.toNat := fun c hc => 
    UInt8.toNat_ofNat_of_lt' (Nat.lt_trans (h c hc) (by decide))
  rw [bytes_ascii h, fromUtf8Lossy_ascii, List.map_map]
  · refine (List.map_congr_left fun c hc => ?_).trans s.map_id
    rw [Function.comp_apply, hbyte c hc, Char.ofNat_toNat, id]
  · intro b hb
    obtain ⟨c, hc, rfl⟩ := List.mem_map.mp hb
    rw [hbyte c hc]
    exact h c hc

theorem toNat_ofNat_valid {n : Nat} (hn : n.isValidChar) : (Char.ofNat n).val.toNat = n := by
  unfold Char.ofNat
  rw [dif_pos hn]
  rfl

theorem toNat_ofNat_ascii {n : Nat} (hn : n < 0x80) : (Char.ofNat n).toNat = n :=
  toNat_ofNat_valid (.inl (by omega))

theorem toNat_ofNat_of_le {n : Nat} (hn : 0x80 ≤ n) : 0x80 ≤ (Char.ofNat n).toNat ∨ (Char.ofNat n).toNat = 0 := by
  by_cases hvalid : n.isValidChar
  · exact .inl (hn.trans_eq (toNat_ofNat_valid hvalid).symm)
  · right
    unfold Char.ofNat
    rw [dif_neg hvalid]
    rfl

theorem within_iff {lo hi : Nat} : within lo hi b = true ↔ lo ≤ b.toNat ∧ b.toNat ≤ hi := by
  simp [within]

theorem le_of_two (h : within 0xc2 0xdf b = true) (n : Nat) : 0x80 ≤ (b.toNat % 32) * 64 + n := by
  obtain ⟨hlo, hhi⟩ := within_iff.mp h
  omega

theorem le_of_three {c : UInt8} (h : within 0xe0 0xef b = true)
    (hc : within (secondOfThree b).1 (secondOfThree b).2 c = true) (n : Nat) :
    0x80 ≤ (b.toNat % 16) * 4096 + low c * 64 + n := by
  obtain ⟨hlo, hhi⟩ := within_iff.mp h
  by_cases hb : b = 0xe0
  · obtain ⟨hclo, hchi⟩ := within_iff.mp hc
    simp only [secondOfThree, if_pos hb] at hclo hchi
    unfold low
    omega
  · have hne : b.toNat ≠ 0xe0 := fun heq => hb (UInt8.toNat_inj.mp heq)
    omega

theorem le_of_four {c : UInt8} (h : within 0xf0 0xf4 b = true)
    (hc : within (secondOfFour b).1 (secondOfFour b).2 c = true) (m n : Nat) :
    0x80 ≤ (b.toNat % 8) * 262144 + low c * 4096 + m + n := by
  obtain ⟨hlo, hhi⟩ := within_iff.mp h
  by_cases hb : b = 0xf0
  · obtain ⟨hclo, hchi⟩ := within_iff.mp hc
    simp only [secondOfFour, if_pos hb] at hclo hchi
    unfold low
    omega
  · have hne : b.toNat ≠ 0xf0 := fun heq => hb (UInt8.toNat_inj.mp heq)
    omega

/-- No other byte begins an ASCII character. -/
theorem next_not_ascii (hb : 0x80 ≤ b.toNat) {c : Char} (h : (next b rest).1 = some c) :
    0x80 ≤ c.toNat ∨ c.toNat = 0 := by
  unfold next at h
  rw [if_neg (by omega)] at h
  repeat' split at h
  all_goals cases h
  · exact toNat_ofNat_of_le (le_of_two ‹_› _)
  · exact toNat_ofNat_of_le (le_of_three ‹_› ‹_› _)
  · exact toNat_ofNat_of_le (le_of_four ‹_› ‹_› _ _)

/-- **An ASCII character is its byte**, and the text goes on behind it. -/
theorem exists_of_fromUtf8Lossy {c : Char} {t : Str} (h : fromUtf8Lossy bs = c :: t)
    (hc : 0 < c.toNat ∧ c.toNat < 0x80) :
    ∃ b rest, bs = b :: rest ∧ b.toNat = c.toNat ∧ t = fromUtf8Lossy rest := by
  cases bs with
  | nil => cases h
  | cons b rest =>
    rw [fromUtf8Lossy_cons] at h
    obtain ⟨hhead, htail⟩ := List.cons.inj h
    by_cases hb : b.toNat < 0x80
    · rw [next_ascii hb] at hhead htail
      refine ⟨b, rest, rfl, ?_, htail.symm⟩
      rw [← hhead, Option.getD_some]
      exact (toNat_ofNat_ascii hb).symm
    · exfalso
      cases hnext : (next b rest).1 with
      | none =>
        rw [hnext] at hhead
        rw [← hhead] at hc
        exact absurd hc (by decide)
      | some d =>
        rw [hnext] at hhead
        have hd := next_not_ascii (by omega) hnext
        obtain rfl : d = c := hhead
        omega

end NekoGuard.Utf8
