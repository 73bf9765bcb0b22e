/-
Relative references and their resolution against a path on the same origin,
after RFC 3986, section 5.2: a path, a query and a fragment; merged with the
directory of the base, and without dot segments.
-/
import Mathlib.Data.List.Basic
import Mathlib.Data.List.Induction
import Mathlib.Data.List.TakeWhile
import NekoGuard.Lib.Scan

namespace NekoGuard.Lib

structure Reference where
  path : List Char
  query : Option (List Char)
  fragment : Option (List Char)
deriving DecidableEq, Repr

namespace Reference

/-- A component behind its delimiter. -/
def component (c : Char) : Option (List Char) → List Char
  | some s => c :: s
  | none => []

def pathAndQuery (r : Reference) : List Char := r.path ++ component '?' r.query

/-- The reference as it is written. -/
def text (r : Reference) : List Char := r.pathAndQuery ++ component '#' r.fragment

/-- Neither a scheme nor an authority, and more than a fragment. -/
structure Relative (r : Reference) : Prop where
  path_clean : ∀ c ∈ r.path, c ≠ '?' ∧ c ≠ '#'
  query_clean : ∀ q ∈ r.query, '#' ∉ q
  no_authority : ¬['/', '/'] <+: r.path
  no_scheme : ':' ∉ r.path.takeWhile (· ≠ '/')
  nonempty : r.pathAndQuery ≠ []

/-! ## Dot segments -/

def segments (path : List Char) : List (List Char) := path.splitOn '/'

/-- `.` or `..`. -/
def IsDot (s : List Char) : Prop := s = ['.'] ∨ s = ['.', '.']

instance (s : List Char) : Decidable (IsDot s) := inferInstanceAs (Decidable (_ ∨ _))

/-- Where one is after these segments, innermost first. -/
def climb : List (List Char) → List (List Char) → List (List Char)
  | stack, [] => stack
  | stack, s :: segs => climb (if s = ['.'] then stack else if s = ['.', '.'] then stack.tail else s :: stack) segs

/-- A dot segment at the end leaves a directory. -/
def withoutDots (segs : List (List Char)) : List (List Char) :=
  (climb [] segs).reverse ++ if segs.getLast?.any fun s => IsDot s then [[]] else []

/-- `remove_dot_segments` of a path from the root. -/
def removeDots : List Char → List Char
  | '/' :: rest => '/' :: ['/'].intercalate (withoutDots (segments rest))
  | path => path

/-! ## Resolution -/

def basePath (base : List Char) : List Char := base.takeWhile (· ≠ '?')

/-- Up to the last `/`. -/
def directory (path : List Char) : List Char := (path.reverse.dropWhile (· ≠ '/')).reverse

def merge (base ref : List Char) : List Char := if base = [] then '/' :: ref else directory base ++ ref

/-- What a relative reference names, by its path and query, for a document
at `base`. -/
def resolve (base : List Char) (r : Reference) : List Char :=
  if r.path = [] then
    match r.query with
    | some q => basePath base ++ '?' :: q
    | none => base
  else
    (if r.path.head? = some '/' then removeDots r.path else removeDots (merge (basePath base) r.path)) ++
      component '?' r.query

/-- Examples of the standard: `../g`, `./g/.` and `../../../g`. -/
example : resolve "/b/c/d;p?q".toList ⟨"../g".toList, none, none⟩ = "/b/g".toList ∧
    resolve "/b/c/d;p?q".toList ⟨"./g/.".toList, none, none⟩ = "/b/c/g/".toList ∧
    resolve "/b/c/d;p?q".toList ⟨"../../../g".toList, none, none⟩ = "/g".toList := by decide

variable {s path d p : List Char} {segs dirs stack : List (List Char)}

theorem climb_append (stack dirs segs : List (List Char)) :
    climb stack (dirs ++ segs) = climb (climb stack dirs) segs := by
  induction dirs generalizing stack with
  | nil => rfl
  | cons s dirs ih => exact ih _

theorem climb_of_not_dot (h : ∀ s ∈ segs, ¬IsDot s) (stack : List (List Char)) :
    climb stack segs = segs.reverse ++ stack := by
  induction segs generalizing stack with
  | nil => rfl
  | cons s segs ih =>
    have hs := h s List.mem_cons_self
    rw [IsDot, not_or] at hs
    rw [climb, if_neg hs.1, if_neg hs.2, ih fun s' hs' => h s' (List.mem_cons_of_mem _ hs')]
    simp

/-- What is left are segments that were there, and no dots. -/
theorem mem_climb (h : s ∈ climb stack segs) : s ∈ stack ∨ s ∈ segs ∧ ¬IsDot s := by
  induction segs generalizing stack with
  | nil => exact .inl h
  | cons s' segs ih =>
    rw [climb] at h
    rcases ih h with hstack | ⟨hmem, hdot⟩
    · split at hstack
      · exact .inl hstack
      · split at hstack
        · exact .inl (List.mem_of_mem_tail hstack)
        · next hone htwo =>
          rcases List.mem_cons.mp hstack with rfl | hstack
          · exact .inr ⟨List.mem_cons_self, not_or.mpr ⟨hone, htwo⟩⟩
          · exact .inl hstack
    · exact .inr ⟨List.mem_cons_of_mem _ hmem, hdot⟩

theorem mem_withoutDots (h : s ∈ withoutDots segs) : s = [] ∨ s ∈ segs ∧ ¬IsDot s := by
  rcases List.mem_append.mp h with hclimb | hend
  · exact .inr ((mem_climb (List.mem_reverse.mp hclimb)).resolve_left nofun)
  · split at hend
    · exact .inl (List.mem_singleton.mp hend)
    · cases hend

theorem not_isDot_of_mem (h : s ∈ withoutDots segs) : ¬IsDot s := by
  rcases mem_withoutDots h with rfl | hs
  · decide
  · exact hs.2

/-- Segments without dots stay, behind what is left of those before them. -/
theorem withoutDots_append (hne : segs ≠ []) (h : ∀ s ∈ segs, ¬IsDot s) (dirs : List (List Char)) :
    withoutDots (dirs ++ segs) = (climb [] dirs).reverse ++ segs := by
  obtain ⟨front, last, rfl⟩ := (List.eq_nil_or_concat' segs).resolve_left hne
  have hlast := h last (by simp)
  unfold withoutDots
  rw [climb_append, climb_of_not_dot h, ← List.append_assoc, List.getLast?_concat]
  simp [hlast]

theorem withoutDots_ne_nil (h : segs ≠ []) : withoutDots segs ≠ [] := by
  obtain ⟨front, last, rfl⟩ := (List.eq_nil_or_concat' segs).resolve_left h
  unfold withoutDots
  rw [List.getLast?_concat]
  by_cases hlast : IsDot last
  · simp [hlast]
  · have hclimb : climb [] (front ++ [last]) = last :: climb [] front := by
      rw [climb_append, climb_of_not_dot (by simpa using hlast)]
      rfl
    simp [hclimb]

theorem slash_not_mem_segments (h : s ∈ segments path) : '/' ∉ s := Scan.not_mem_of_mem_splitOn h

/-- A path is what dots leave of another when its segments are. -/
theorem eq_removeDots_iff (path rest : List Char) :
    '/' :: path = removeDots ('/' :: rest) ↔ segments path = withoutDots (segments rest) := by
  have hslash : ∀ s ∈ withoutDots (segments rest), '/' ∉ s := by
    intro s hs
    rcases mem_withoutDots hs with rfl | hs
    · exact nofun
    · exact slash_not_mem_segments hs.1
  have hback := List.splitOn_intercalate '/' hslash (withoutDots_ne_nil (List.splitOn_ne_nil '/' rest))
  rw [removeDots, List.cons_inj_right]
  constructor
  · intro h
    rw [h]
    exact hback
  · intro h
    rw [← h, segments, List.intercalate_splitOn]

/-- **A path keeps itself** when none of its segments is a dot. -/
theorem removeDots_eq_self_iff (path : List Char) :
    removeDots ('/' :: path) = '/' :: path ↔ ∀ s ∈ segments path, ¬IsDot s := by
  rw [eq_comm, eq_removeDots_iff]
  constructor
  · intro h s hs
    rw [h] at hs
    exact not_isDot_of_mem hs
  · intro h
    have hkeep : withoutDots ([] ++ segments path) = [] ++ segments path :=
      withoutDots_append (List.splitOn_ne_nil '/' path) h []
    exact hkeep.symm

/-! ## Directories -/

/-- What a path from the root is in: the root, or what ends in a `/`. -/
theorem exists_directory (path : List Char) :
    ∃ d, directory ('/' :: path) = '/' :: d ∧ (d = [] ∨ ∃ d', d = d' ++ ['/']) := by
  induction path using List.reverseRecOn with
  | nil => exact ⟨[], by decide, .inl rfl⟩
  | append_singleton path c ih =>
    by_cases hc : c = '/'
    · subst hc
      refine ⟨path ++ ['/'], ?_, .inr ⟨path, rfl⟩⟩
      simp [directory]
    · obtain ⟨d, hd, hshape⟩ := ih
      refine ⟨d, ?_, hshape⟩
      rw [← hd]
      simp [directory, hc]

/-- The segments a directory puts before those of a path. -/
theorem exists_segments (hd : d = [] ∨ ∃ d', d = d' ++ ['/']) :
    ∃ dirs, ∀ path, segments (d ++ path) = dirs ++ segments path := by
  rcases hd with rfl | ⟨d', rfl⟩
  · exact ⟨[], fun path => rfl⟩
  · refine ⟨segments d', fun path => ?_⟩
    rw [List.append_assoc, List.singleton_append]
    exact List.splitOn_append_cons_self d' path

/-- **When a merged path keeps none of its directory**: none of its own
segments is a dot, and the directory comes down to the root. -/
theorem eq_removeDots_merge_iff {base : List Char} (hbase : base = [] ∨ base.head? = some '/') (path : List Char) :
    '/' :: path = removeDots (merge base path) ↔
      (∀ s ∈ segments path, ¬IsDot s) ∧ (base ≠ [] → removeDots (directory base) = ['/']) := by
  rcases hbase with rfl | hbase
  · rw [merge, if_pos rfl, eq_comm, removeDots_eq_self_iff]
    simp
  · obtain ⟨rest, rfl⟩ : ∃ rest, base = '/' :: rest := by
      obtain ⟨rest, hrest⟩ := List.head?_eq_some_iff.mp hbase
      exact ⟨rest, hrest⟩
    obtain ⟨d, hd, hshape⟩ := exists_directory rest
    obtain ⟨dirs, hdirs⟩ := exists_segments hshape
    have hne : segments path ≠ [] := List.splitOn_ne_nil '/' path
    have hroot : removeDots ('/' :: d) = ['/'] ↔ climb [] dirs = [] := by
      have hempty : withoutDots (dirs ++ [[]]) = (climb [] dirs).reverse ++ [[]] :=
        withoutDots_append (by decide) (by decide) dirs
      have hwithout : withoutDots (segments (d ++ [])) = (climb [] dirs).reverse ++ [[]] := (hdirs []) ▸ hempty
      rw [List.append_nil] at hwithout
      rw [eq_comm, eq_removeDots_iff, hwithout, eq_comm]
      simp [segments]
    rw [merge, if_neg nofun, hd, List.cons_append, eq_removeDots_iff, hdirs, hroot]
    constructor
    · intro h
      have hdots : ∀ s ∈ segments path, ¬IsDot s := by
        intro s hs
        rw [h] at hs
        exact not_isDot_of_mem hs
      rw [withoutDots_append hne hdots] at h
      have hclimb : (climb [] dirs).reverse = [] := List.append_left_eq_self.mp h.symm
      exact ⟨hdots, fun _ => List.reverse_eq_nil_iff.mp hclimb⟩
    · intro ⟨hdots, hclimb⟩
      rw [withoutDots_append hne hdots, hclimb nofun]
      rfl

end Reference

end NekoGuard.Lib
