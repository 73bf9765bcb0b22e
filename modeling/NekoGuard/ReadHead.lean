/-
embed.rs: what `read_head` makes of a document that comes in chunks, and
when that depends on the chunks (`readHead_chunks_iff`).
-/
import NekoGuard.FetchFacts
import NekoGuard.Lib.Machine
import Mathlib.Data.List.Induction

namespace NekoGuard.Embed

/-! ## Markers -/

/-- `</head` stands there, whatever its case. -/
def MarkerAt (buf : Bytes) (i : Nat) : Prop :=
  ((buf.drop i).take headMarker.length).map lowerByte = headMarker

instance (buf : Bytes) (i : Nat) : Decidable (MarkerAt buf i) :=
  inferInstanceAs (Decidable (_ = _))

/-- The first one. -/
structure FirstMarker (buf : Bytes) (i : Nat) : Prop where
  at_ : MarkerAt buf i
  first : ∀ j < i, ¬MarkerAt buf j

variable {buf more data collected : Bytes} {i start : Nat}

theorem length_headMarker : headMarker.length = 6 := by decide

theorem MarkerAt.le_length (h : MarkerAt buf i) : i + 6 ≤ buf.length := by
  have hlen := congrArg List.length h
  rw [List.length_map, List.length_take, List.length_drop, length_headMarker] at hlen
  omega

/-- What follows a marker does not matter. -/
theorem markerAt_append (h : i + 6 ≤ buf.length) : MarkerAt (buf ++ more) i ↔ MarkerAt buf i := by
  unfold MarkerAt
  rw [List.drop_append_of_le_length (by omega), List.take_append_of_le_length]
  rw [length_headMarker, List.length_drop]
  omega

theorem MarkerAt.append (h : MarkerAt buf i) (more : Bytes) : MarkerAt (buf ++ more) i :=
  (markerAt_append h.le_length).mpr h

/-- Markers come to an end in what is new. -/
theorem lt_of_markerAt_append (hnone : ∀ j, ¬MarkerAt buf j) (h : MarkerAt (buf ++ more) i) : buf.length < i + 6 := by
  by_contra hle
  exact hnone i ((markerAt_append (by omega)).mp h)

theorem exists_firstMarker (h : MarkerAt buf i) : ∃ j, FirstMarker buf j := by
  have hex : ∃ j, MarkerAt buf j := ⟨i, h⟩
  exact ⟨Nat.find hex, Nat.find_spec hex, fun j hj => Nat.find_min hex hj⟩

/-- **What `find_head_end` finds**, where all before `start` has been
searched. -/
theorem findHeadEnd_eq_some (hsearched : ∀ j < start, ¬MarkerAt buf j) :
    findHeadEnd buf start = some i ↔ FirstMarker buf i := by
  have hat : ∀ j, (((buf.drop j).take headMarker.length).map lowerByte == headMarker) = true ↔ MarkerAt buf j :=
    fun _ => beq_iff_eq
  unfold findHeadEnd
  split
  · next hshort =>
    rw [length_headMarker] at hshort
    refine iff_of_false nofun fun h => ?_
    have hle := h.at_.le_length
    omega
  · next hlong =>
    rw [length_headMarker] at hlong
    simp only [List.find?_range'_eq_some, hat, Bool.not_eq_true', ← Bool.not_eq_true, List.mem_range'_1]
    constructor
    · intro ⟨hi, hrange, hbefore⟩
      refine ⟨hi, fun j hj hmarker => ?_⟩
      by_cases hlt : min start (buf.length - headMarker.length) ≤ j
      · exact hbefore j hlt hj hmarker
      · exact hsearched j (by omega) hmarker
    · intro h
      have hle := h.at_.le_length
      have hstart : start ≤ i := by
        by_contra hlt
        exact hsearched i (by omega) h.at_
      refine ⟨h.at_, ?_, fun j _ hj => h.first j hj⟩
      rw [length_headMarker]
      omega

theorem findHeadEnd_eq_none (hsearched : ∀ j < start, ¬MarkerAt buf j) :
    findHeadEnd buf start = none ↔ ∀ j, ¬MarkerAt buf j := by
  rw [Option.eq_none_iff_forall_ne_some]
  constructor
  · intro h j hj
    obtain ⟨k, hk⟩ := exists_firstMarker hj
    exact h k ((findHeadEnd_eq_some hsearched).mpr hk)
  · intro h k hk
    exact h k ((findHeadEnd_eq_some hsearched).mp hk).at_

/-! ## Chunks -/

variable {fails : Bool} {frames : List Bytes}

/-- One more chunk, where what came before it has no marker. -/
theorem readChunks_cons_of_first {chunk : Bytes} (hnone : ∀ j, ¬MarkerAt collected j)
    (hi : FirstMarker (collected ++ chunk) i) :
    readChunks (chunk :: frames) fails collected (collected.length - 5) = some ((collected ++ chunk).take i) := by
  have hsearched : ∀ j < collected.length - 5, ¬MarkerAt (collected ++ chunk) j := by
    intro j hj hmarker
    have hlt := lt_of_markerAt_append hnone hmarker
    omega
  unfold readChunks
  rw [(findHeadEnd_eq_some hsearched).mpr hi]

theorem readChunks_cons_of_none {chunk : Bytes} (hnone : ∀ j, ¬MarkerAt (collected ++ chunk) j) :
    readChunks (chunk :: frames) fails collected (collected.length - 5) =
      if maxHtml < (collected ++ chunk).length then none
      else readChunks frames fails (collected ++ chunk) ((collected ++ chunk).length - 5) := by
  have hfind : findHeadEnd (collected ++ chunk) (collected.length - 5) = none :=
    (findHeadEnd_eq_none fun j _ => hnone j).mpr hnone
  conv_lhs => unfold readChunks
  rw [hfind, length_headMarker]

theorem MarkerAt.not_of_append (hnone : ∀ j, ¬MarkerAt (buf ++ more) j) (j : Nat) : ¬MarkerAt buf j :=
  fun h => hnone j (h.append more)

/-- **A marker within the limit is found**, whatever the chunks. -/
theorem readChunks_of_firstMarker (hnone : ∀ j, ¬MarkerAt collected j)
    (hi : FirstMarker (collected ++ frames.flatten) i) (hwithin : i + 5 ≤ maxHtml) :
    readChunks frames fails collected (collected.length - 5) = some ((collected ++ frames.flatten).take i) := by
  induction frames generalizing collected with
  | nil =>
    rw [List.flatten_nil, List.append_nil] at hi
    exact absurd hi.at_ (hnone i)
  | cons chunk frames ih =>
    rw [List.flatten_cons, ← List.append_assoc] at hi ⊢
    by_cases hsome : ∃ j, MarkerAt (collected ++ chunk) j
    · obtain ⟨j, hj⟩ := hsome
      obtain ⟨k, hk⟩ := exists_firstMarker hj
      -- The first marker of a prefix is the first one.
      have hki : k = i := by
        have hle : ¬k < i := fun hlt => hi.first k hlt (hk.at_.append _)
        have hge : ¬i < k := by
          intro hlt
          have hlen := hk.at_.le_length
          exact hk.first i hlt ((markerAt_append (by omega)).mp hi.at_)
        omega
      subst hki
      have hlen := hk.at_.le_length
      have htake : (collected ++ chunk ++ frames.flatten).take k = (collected ++ chunk).take k :=
        List.take_append_of_le_length (by omega)
      rw [readChunks_cons_of_first hnone hk, htake]
    · have hnone' : ∀ j, ¬MarkerAt (collected ++ chunk) j := fun j hj => hsome ⟨j, hj⟩
      have hlt := lt_of_markerAt_append hnone' hi.at_
      rw [readChunks_cons_of_none hnone', if_neg (by omega), ih hnone' hi]

/-- **Without a marker** the limit decides. -/
theorem readChunks_of_no_marker (hnone : ∀ j, ¬MarkerAt (collected ++ frames.flatten) j)
    (hlen : collected.length ≤ maxHtml) :
    readChunks frames false collected (collected.length - 5) =
      if maxHtml < (collected ++ frames.flatten).length then none else some (collected ++ frames.flatten) := by
  induction frames generalizing collected with
  | nil =>
    rw [List.flatten_nil, List.append_nil, if_neg (by omega)]
    rfl
  | cons chunk frames ih =>
    rw [List.flatten_cons, ← List.append_assoc] at hnone ⊢
    rw [readChunks_cons_of_none (MarkerAt.not_of_append hnone)]
    by_cases hlt : maxHtml < (collected ++ chunk).length
    · rw [if_pos hlt, if_pos]
      rw [List.length_append]
      omega
    · rw [if_neg hlt, ih hnone (by omega)]

/-! ## Documents -/

theorem not_markerAt_nil (j : Nat) : ¬MarkerAt [] j := by
  intro h
  have hlen := h.le_length
  simp at hlen

theorem readHead_of_firstMarker (hi : FirstMarker frames.flatten i) (hwithin : i + 5 ≤ maxHtml) :
    readHead ⟨frames, fails⟩ = some (Utf8.fromUtf8Lossy (frames.flatten.take i)) := by
  have hread := @readChunks_of_firstMarker [] i fails frames not_markerAt_nil hi hwithin
  exact congrArg (Option.map Utf8.fromUtf8Lossy) hread

theorem readHead_of_no_marker (hnone : ∀ j, ¬MarkerAt frames.flatten j) :
    readHead ⟨frames, false⟩ =
      if maxHtml < frames.flatten.length then none else some (Utf8.fromUtf8Lossy frames.flatten) := by
  have hread := @readChunks_of_no_marker [] frames hnone (by simp)
  refine (congrArg (Option.map Utf8.fromUtf8Lossy) hread).trans ?_
  rw [List.nil_append]
  split <;> rfl

/-- Wherever the marker is, one chunk shows it. -/
theorem readHead_single (hi : FirstMarker data i) :
    readHead ⟨[data], fails⟩ = some (Utf8.fromUtf8Lossy (data.take i)) := by
  have hread := @readChunks_cons_of_first [] i fails [] data not_markerAt_nil hi
  exact congrArg (Option.map Utf8.fromUtf8Lossy) hread

/-- A chunk that ends in the middle of it, past the limit, does not. -/
theorem readHead_cut (hi : FirstMarker data i) (hpast : maxHtml < i + 5) :
    readHead ⟨[data.take (maxHtml + 1), data.drop (maxHtml + 1)], fails⟩ = none := by
  have hlen := hi.at_.le_length
  have hnone : ∀ j, ¬MarkerAt (data.take (maxHtml + 1)) j := by
    intro j hj
    have hle := hj.le_length
    rw [List.length_take] at hle
    have hmarker := hj.append (data.drop (maxHtml + 1))
    rw [List.take_append_drop] at hmarker
    exact hi.first j (by omega) hmarker
  have hread := @readChunks_cons_of_none [] fails [data.drop (maxHtml + 1)] (data.take (maxHtml + 1)) hnone
  rw [List.nil_append, if_pos (by rw [List.length_take]; omega)] at hread
  exact congrArg (Option.map Utf8.fromUtf8Lossy) hread

/-- **When the chunks do not matter**: the first marker ends at most one byte
past the limit, or there is none. -/
theorem readHead_chunks_iff (data : Bytes) :
    (∀ frames frames' : List Bytes, frames.flatten = data → frames'.flatten = data →
      readHead ⟨frames, false⟩ = readHead ⟨frames', false⟩) ↔
    ∀ i, FirstMarker data i → i + 5 ≤ maxHtml := by
  constructor
  · intro h i hi
    by_contra hpast
    have heq := h [data] [data.take (maxHtml + 1), data.drop (maxHtml + 1)] (by simp)
      (by simp [List.take_append_drop])
    rw [readHead_single hi, readHead_cut hi (by omega)] at heq
    cases heq
  · rintro hwithin frames frames' rfl hdata
    by_cases hsome : ∃ j, MarkerAt frames.flatten j
    · obtain ⟨j, hj⟩ := hsome
      obtain ⟨i, hi⟩ := exists_firstMarker hj
      rw [readHead_of_firstMarker hi (hwithin i hi)]
      rw [← hdata] at hi hwithin
      rw [readHead_of_firstMarker hi (hwithin i hi), hdata]
    · have hnone : ∀ j, ¬MarkerAt frames.flatten j := fun j hj => hsome ⟨j, hj⟩
      rw [readHead_of_no_marker hnone]
      rw [← hdata] at hnone
      rw [readHead_of_no_marker hnone, hdata]

/-! ## The search after each chunk -/

/-- `&buf[i..j]`. -/
def sliceBytes (buf : Bytes) (i j : Nat) : Rust Bytes :=
  if i ≤ j ∧ j ≤ buf.length then .ok ((buf.drop i).take (j - i)) else .error ⟨"range out of range for slice"⟩

/-- The closure of `find_head_end`, at one index after the other. -/
def findMarker (buf : Bytes) : List Nat → Rust (Option Nat)
  | [] => .ok none
  | i :: is => do
    let window ← sliceBytes buf i (i + headMarker.length)
    if window.map lowerByte == headMarker then return some i else findMarker buf is

/-- `find_head_end`, with the slices it takes. -/
def findHeadEndSlicing (buf : Bytes) (start : Nat) : Rust (Option Nat) :=
  if buf.length < headMarker.length then .ok none
  else
    let last := buf.length - headMarker.length
    let start := min start last
    findMarker buf (List.range' start (last + 1 - start))

theorem findMarker_eq {is : List Nat} (h : ∀ i ∈ is, i + headMarker.length ≤ buf.length) :
    findMarker buf is =
      .ok (is.find? fun i => ((buf.drop i).take headMarker.length).map lowerByte == headMarker) := by
  induction is with
  | nil => rfl
  | cons i is ih =>
    have hslice : sliceBytes buf i (i + headMarker.length) = .ok ((buf.drop i).take headMarker.length) := by
      unfold sliceBytes
      rw [if_pos ⟨by omega, h i List.mem_cons_self⟩, Nat.add_sub_cancel_left]
    unfold findMarker
    rw [hslice, List.find?_cons]
    change (if _ then Except.ok (some i) else findMarker buf is) = _
    cases ((buf.drop i).take headMarker.length).map lowerByte == headMarker with
    | true => rfl
    | false => exact ih fun j hj => h j (List.mem_cons_of_mem i hj)

/-- Every slice is in range. -/
theorem findHeadEndSlicing_eq (buf : Bytes) (start : Nat) :
    findHeadEndSlicing buf start = .ok (findHeadEnd buf start) := by
  unfold findHeadEndSlicing findHeadEnd
  split
  · rfl
  · next hlong =>
    refine findMarker_eq fun i hi => ?_
    rw [List.mem_range'_1] at hi
    omega

/-- What one chunk does to `collected` and `scanned`, where the loop goes on. -/
def readStep : Lib.Machine (Bytes × Nat) Bytes := fun s chunk =>
  let collected := s.1 ++ chunk
  match findHeadEnd collected s.2 with
  | some _ => none
  | none =>
    if maxHtml < collected.length then none else some (collected, collected.length - (headMarker.length - 1))

/-- The loop is at its next chunk with what has been searched. -/
structure Searched (chunks : List Bytes) (s : Bytes × Nat) : Prop where
  collected : s.1 = chunks.flatten
  none_yet : ∀ j, ¬MarkerAt s.1 j
  scanned : s.2 = s.1.length - 5

theorem Searched.before {chunks : List Bytes} {s : Bytes × Nat} (h : Searched chunks s) (chunk : Bytes) :
    ∀ j < s.2, ¬MarkerAt (s.1 ++ chunk) j := by
  intro j hj hmarker
  have hlt := lt_of_markerAt_append h.none_yet hmarker
  rw [h.scanned] at hj
  omega

theorem Searched.step {chunks : List Bytes} {s t : Bytes × Nat} {chunk : Bytes} (h : Searched chunks s)
    (hstep : readStep s chunk = some t) : Searched (chunks ++ [chunk]) t := by
  simp only [readStep] at hstep
  split at hstep
  · cases hstep
  · next hfind =>
    rw [findHeadEnd_eq_none (h.before chunk)] at hfind
    split at hstep
    · cases hstep
    · cases hstep
      exact ⟨by simp [h.collected], hfind, by rw [length_headMarker]⟩

theorem searched_of_run {chunks : List Bytes} {s : Bytes × Nat}
    (h : Lib.Machine.run readStep ([], 0) chunks = some s) : Searched chunks s := by
  induction chunks using List.reverseRecOn generalizing s with
  | nil =>
    cases h
    exact ⟨rfl, not_markerAt_nil, rfl⟩
  | append_singleton chunks chunk ih =>
    obtain ⟨t, ht, hstep⟩ := Lib.Machine.run_snoc_eq_some.mp h
    exact (ih ht).step hstep

/-- The loop of `read_head` is these steps, up to its last chunk. -/
theorem readChunks_of_run {chunks : List Bytes} {s : Bytes × Nat} {collected : Bytes} {scanned : Nat}
    (h : Lib.Machine.run readStep (collected, scanned) chunks = some s) :
    readChunks (chunks ++ frames) fails collected scanned = readChunks frames fails s.1 s.2 := by
  induction chunks generalizing collected scanned with
  | nil =>
    cases h
    rfl
  | cons chunk chunks ih =>
    obtain ⟨t, hstep, hrun⟩ := Lib.Machine.run_cons_eq_some.mp h
    simp only [readStep] at hstep
    split at hstep
    · cases hstep
    · next hfind =>
      split at hstep
      · cases hstep
      · next hmax =>
        cases hstep
        rw [List.cons_append]
        simp only [readChunks, hfind, if_neg hmax]
        exact ih hrun

/-- **After each chunk the search finds the first marker of all that has been
collected**, if there is one, and slices nothing out of range. -/
theorem findHeadEnd_after_chunk {chunks : List Bytes} {collected : Bytes} {scanned : Nat}
    (h : Lib.Machine.run readStep ([], 0) chunks = some (collected, scanned)) (chunk : Bytes) :
    collected ++ chunk = (chunks ++ [chunk]).flatten ∧
    (∀ i, findHeadEnd (collected ++ chunk) scanned = some i ↔ FirstMarker (collected ++ chunk) i) ∧
    (findHeadEnd (collected ++ chunk) scanned = none ↔ ∀ i, ¬MarkerAt (collected ++ chunk) i) ∧
    findHeadEndSlicing (collected ++ chunk) scanned = .ok (findHeadEnd (collected ++ chunk) scanned) := by
  have hsearched := searched_of_run h
  have hbefore := hsearched.before chunk
  refine ⟨?_, fun i => findHeadEnd_eq_some hbefore, findHeadEnd_eq_none hbefore, findHeadEndSlicing_eq _ _⟩
  rw [List.flatten_concat, ← hsearched.collected]

/-- A marker in two pieces, with an empty chunk between them. -/
theorem findHeadEnd_after_pieces :
    findHeadEnd (Text.bytes "<html></h".toList ++ Text.bytes "EAD>".toList) 4 = some 6 := by
  have hrun : Lib.Machine.run readStep ([], 0) [Text.bytes "<html></h".toList, []] =
      some (Text.bytes "<html></h".toList, 4) := by decide +kernel
  obtain ⟨-, hsome, -, -⟩ := findHeadEnd_after_chunk hrun (Text.bytes "EAD>".toList)
  refine (hsome 6).mpr ⟨by decide, by decide⟩

/-! ## A document at the limit -/

def atLimit : Bytes := List.replicate maxHtml 0x61 ++ headMarker

theorem atLimit_first : FirstMarker atLimit maxHtml where
  at_ := by
    unfold MarkerAt atLimit
    rw [List.drop_left' List.length_replicate]
    decide
  first := by
    intro j hj h
    have hhead := congrArg (List.head? ·) h
    unfold atLimit at hhead
    rw [List.drop_append_of_le_length (by rw [List.length_replicate]; omega), List.drop_replicate] at hhead
    obtain ⟨k, hk⟩ : ∃ k, maxHtml - j = k + 1 := ⟨maxHtml - j - 1, by omega⟩
    rw [hk, List.replicate_succ, List.cons_append, length_headMarker] at hhead
    simp only [List.take_succ_cons, List.map_cons, List.head?_cons] at hhead
    exact absurd hhead (by decide)

/-- A document of 512 KiB up to its `</head`: in one chunk it has a head, in
two it has none. -/
theorem atLimit_cut :
    readHead ⟨[atLimit], false⟩ ≠ none ∧
    readHead ⟨[atLimit.take (maxHtml + 1), atLimit.drop (maxHtml + 1)], false⟩ = none ∧
    [atLimit].flatten = [atLimit.take (maxHtml + 1), atLimit.drop (maxHtml + 1)].flatten := by
  refine ⟨?_, readHead_cut atLimit_first (by omega), by simp [List.take_append_drop]⟩
  rw [readHead_single atLimit_first]
  nofun

end NekoGuard.Embed
