/-
`HeaderMap` and `HeaderValue` as a response is patched with them: fields
replaced, appended and listed, and values as the characters their bytes are.
-/
import NekoGuard.Std.Http
import NekoGuard.Std.TextFacts
import NekoGuard.Std.Utf8

namespace NekoGuard.Http

variable {headers : HeaderMap} {name other : Str} {v : Bytes} {s : Str}

/-- `headers.get_all(name)`. -/
def getAll (headers : HeaderMap) (name : Str) : List Bytes := (headers.filter fun h => h.1 == name).map (·.2)

/-- `headers.insert(name, v)`: the fields of that name become one. -/
def insert : HeaderMap → Str → Bytes → HeaderMap
  | [], name, v => [(name, v)]
  | h :: headers, name, v => if h.1 = name then (name, v) :: remove headers name else h :: insert headers name v

/-- `headers.append(name, v)`. -/
def append (headers : HeaderMap) (name : Str) (v : Bytes) : HeaderMap := headers ++ [(name, v)]

/-- The characters of a value, one for each byte. -/
def text (value : Bytes) : Str := value.map fun b => Char.ofNat b.toNat

/-- A character that `to_str` lets through. -/
def visible (c : Char) : Bool := (32 ≤ c.toNat && c.toNat < 127) || c == '\t'

/-! ## Fields -/

theorem get_eq_head? (headers : HeaderMap) (name : Str) : get headers name = (getAll headers name).head? := by
  unfold get getAll
  rw [List.head?_map, List.head?_filter]

theorem getAll_remove_self (headers : HeaderMap) (name : Str) : getAll (remove headers name) name = [] := by
  simp [getAll, remove, List.filter_filter]

theorem getAll_remove_of_ne (h : other ≠ name) (headers : HeaderMap) :
    getAll (remove headers name) other = getAll headers other := by
  unfold getAll remove
  rw [List.filter_filter]
  refine congrArg _ (List.filter_congr fun f _ => ?_)
  by_cases hf : f.1 = other
  · simp [hf, h]
  · simp [hf]

theorem getAll_insert_self (headers : HeaderMap) (name : Str) (v : Bytes) :
    getAll (insert headers name v) name = [v] := by
  induction headers with
  | nil => simp [insert, getAll]
  | cons f headers ih =>
    unfold insert
    have hrest := getAll_remove_self headers name
    unfold getAll at ih hrest ⊢
    by_cases hf : f.1 = name
    · rw [if_pos hf, List.filter_cons_of_pos (by simp), List.map_cons, hrest]
    · rw [if_neg hf, List.filter_cons_of_neg (by simpa using hf)]
      exact ih

theorem getAll_insert_of_ne (h : other ≠ name) (headers : HeaderMap) (v : Bytes) :
    getAll (insert headers name v) other = getAll headers other := by
  induction headers with
  | nil => simp [insert, getAll, Ne.symm h]
  | cons f headers ih =>
    unfold insert
    have hrest := getAll_remove_of_ne h headers
    unfold getAll at ih hrest ⊢
    by_cases hf : f.1 = name
    · rw [if_pos hf, List.filter_cons_of_neg (by simpa using Ne.symm h), hrest,
        List.filter_cons_of_neg (by simpa [hf] using Ne.symm h)]
    · rw [if_neg hf, List.filter_cons, List.filter_cons]
      split
      · rw [List.map_cons, List.map_cons, ih]
      · exact ih

theorem getAll_append_self (headers : HeaderMap) (name : Str) (v : Bytes) :
    getAll (append headers name v) name = getAll headers name ++ [v] := by
  simp [getAll, append]

theorem getAll_append_of_ne (h : other ≠ name) (headers : HeaderMap) (v : Bytes) :
    getAll (append headers name v) other = getAll headers other := by
  simp [getAll, append, Ne.symm h]

theorem getAll_foldl_append_self (vs : List Bytes) (headers : HeaderMap) (name : Str) :
    getAll (vs.foldl (fun headers v => append headers name v) headers) name = getAll headers name ++ vs := by
  induction vs generalizing headers with
  | nil => simp
  | cons v vs ih => rw [List.foldl_cons, ih, getAll_append_self, List.append_assoc, List.singleton_append]

theorem getAll_foldl_append_of_ne (h : other ≠ name) (vs : List Bytes) (headers : HeaderMap) :
    getAll (vs.foldl (fun headers v => append headers name v) headers) other = getAll headers other := by
  induction vs generalizing headers with
  | nil => rfl
  | cons v vs ih => rw [List.foldl_cons, ih, getAll_append_of_ne h]

/-! ## Values -/

theorem toNat_text (b : UInt8) : (Char.ofNat b.toNat).toNat = b.toNat :=
  Utf8.toNat_ofNat_valid (.inl (Nat.lt_trans b.toNat_lt (by decide)))

/-- **What `to_str` reads**: the characters, when all of them are visible. -/
theorem toStr_eq (v : Bytes) : toStr v = if (text v).all visible then some (text v) else none := by
  have hall : (text v).all visible = v.all fun b => (32 ≤ b && b < 127) || b == 9 := by
    unfold text
    rw [List.all_map]
    refine congrArg (List.all v ·) (funext fun b => ?_)
    have htab : (Char.ofNat b.toNat == '\t') = (b == 9) := by
      rw [Bool.eq_iff_iff, beq_iff_eq, beq_iff_eq, ← Char.toNat_inj, toNat_text, ← UInt8.toNat_inj]
      rfl
    simp only [Function.comp_apply, visible, toNat_text, htab]
    rfl
  unfold toStr
  rw [hall]
  rfl

theorem toStr_eq_some {s : Str} : toStr v = some s ↔ text v = s ∧ ∀ c ∈ s, visible c = true := by
  rw [toStr_eq]
  constructor
  · intro h
    split at h
    · next hall =>
      cases h
      exact ⟨rfl, List.all_eq_true.mp hall⟩
    · cases h
  · rintro ⟨rfl, hall⟩
    rw [if_pos (List.all_eq_true.mpr hall)]

theorem lt_of_visible {c : Char} (h : visible c = true) : c.toNat < 0x80 := by
  simp only [visible, Bool.or_eq_true, Bool.and_eq_true, decide_eq_true_eq, beq_iff_eq] at h
  rcases h with ⟨-, h⟩ | rfl
  · omega
  · decide

theorem bytes_visible (h : ∀ c ∈ s, visible c = true) : Text.bytes s = s.map fun c => UInt8.ofNat c.toNat :=
  Utf8.bytes_ascii fun c hc => lt_of_visible (h c hc)

/-- Visible text keeps its characters as a value. -/
theorem text_bytes (h : ∀ c ∈ s, visible c = true) : text (Text.bytes s) = s := by
  rw [bytes_visible h, text, List.map_map]
  refine (List.map_congr_left fun c hc => ?_).trans s.map_id
  have hc := lt_of_visible (h c hc)
  rw [Function.comp_apply, UInt8.toNat_ofNat_of_lt' (Nat.lt_trans hc (by decide)), Char.ofNat_toNat]
  rfl

theorem fromStr_visible (h : ∀ c ∈ s, visible c = true) : fromStr s = some (Text.bytes s) := by
  unfold fromStr
  rw [if_pos]
  rw [bytes_visible h, List.all_map, List.all_eq_true]
  intro c hc
  have hvisible := h c hc
  have hlt := lt_of_visible hvisible
  have hbyte : (UInt8.ofNat c.toNat).toNat = c.toNat := UInt8.toNat_ofNat_of_lt' (Nat.lt_trans hlt (by decide))
  simp only [visible, Bool.or_eq_true, Bool.and_eq_true, decide_eq_true_eq, beq_iff_eq] at hvisible
  simp only [Function.comp_apply, Bool.or_eq_true, Bool.and_eq_true, decide_eq_true_eq, beq_iff_eq, bne_iff_ne,
    ← UInt8.toNat_inj, UInt8.le_iff_toNat_le, ne_eq, hbyte]
  rcases hvisible with ⟨hlo, hhi⟩ | rfl
  · left
    refine ⟨hlo, ?_⟩
    rw [show (127 : UInt8).toNat = 127 from rfl]
    omega
  · right
    rfl

end NekoGuard.Http
