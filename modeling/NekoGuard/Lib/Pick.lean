/-
Association lists seen through a function that keeps, changes or drops each
of their entries. What is looked up in the list that is left is what was there,
seen the same way (`lookup_pick`); and a list seen after an insertion is the
list seen before it, with that one entry inserted or erased (`pick_insert`).
-/
import Mathlib.Data.List.AList

namespace NekoGuard.Lib.Pick

universe u v w

variable {α : Type u} {β : α → Type v} {γ : α → Type w}

/-- An entry, kept or dropped. -/
def pickEntry (f : ∀ a, β a → Option (γ a)) (e : Sigma β) : Option (Sigma γ) := (f e.1 e.2).map (Sigma.mk e.1)

variable {f g : ∀ a, β a → Option (γ a)} {a : α} {b : β a} {c : γ a} {l : List (Sigma β)}

theorem pickEntry_eq_some {e : Sigma β} : pickEntry f e = some ⟨a, c⟩ ↔ ∃ b, e = ⟨a, b⟩ ∧ f a b = some c := by
  obtain ⟨a', b'⟩ := e
  simp only [pickEntry, Option.map_eq_some_iff, Sigma.mk.injEq]
  constructor
  · rintro ⟨c', hc, rfl, hc'⟩
    obtain rfl := eq_of_heq hc'
    exact ⟨b', ⟨rfl, HEq.rfl⟩, hc⟩
  · rintro ⟨b, ⟨rfl, hb⟩, hc⟩
    obtain rfl := eq_of_heq hb
    exact ⟨c, hc, rfl, HEq.rfl⟩

theorem keys_filterMap_sublist (l : List (Sigma β)) : (l.filterMap (pickEntry f)).keys.Sublist l.keys := by
  induction l with
  | nil => exact List.Sublist.slnil
  | cons e l ih =>
    obtain ⟨a, b⟩ := e
    cases hb : f a b with
    | none =>
      rw [List.filterMap_cons_none (by simp [pickEntry, hb])]
      exact ih.cons a
    | some c =>
      rw [List.filterMap_cons_some (b := ⟨a, c⟩) (by simp [pickEntry, hb])]
      exact ih.cons_cons a

theorem nodupKeys_filterMap (h : l.NodupKeys) : (l.filterMap (pickEntry f)).NodupKeys :=
  (keys_filterMap_sublist l).nodup h

variable [DecidableEq α]

/-- What `f` leaves of a list. -/
def pick (f : ∀ a, β a → Option (γ a)) (s : AList β) : AList γ where
  entries := s.entries.filterMap (pickEntry f)
  nodupKeys := nodupKeys_filterMap s.nodupKeys

variable {s : AList β}

theorem lookup_pick (s : AList β) (a : α) : (pick f s).lookup a = (s.lookup a).bind (f a) := by
  refine Option.ext fun c => ?_
  rw [← Option.mem_def, AList.mem_lookup_iff, pick, List.mem_filterMap]
  simp only [pickEntry_eq_some, Option.bind_eq_some_iff]
  constructor
  · rintro ⟨e, he, b, rfl, hc⟩
    exact ⟨b, AList.mem_lookup_iff.mpr he, hc⟩
  · rintro ⟨b, hb, hc⟩
    exact ⟨⟨a, b⟩, AList.mem_lookup_iff.mp hb, b, rfl, hc⟩

theorem pick_congr (h : ∀ a b, s.lookup a = some b → f a b = g a b) : pick f s = pick g s := by
  refine AList.ext (List.filterMap_congr fun e he => ?_)
  obtain ⟨a, b⟩ := e
  rw [pickEntry, pickEntry, h a b (AList.mem_lookup_iff.mpr he)]

theorem keys_pick (s : AList β) : (pick f s).keys = s.keys.filter fun a => ((s.lookup a).bind (f a)).isSome := by
  obtain ⟨l, hl⟩ := s
  have hlook : ∀ e ∈ l, (AList.lookup e.1 ⟨l, hl⟩).bind (f e.1) = f e.1 e.2 := fun e he => by
    rw [AList.mem_lookup_iff.mpr (by exact he), Option.bind_some]
  show ((l.filterMap (pickEntry f)).map Sigma.fst) = (l.map Sigma.fst).filter _
  rw [List.map_filterMap, List.filter_map, ← List.filterMap_eq_filter, List.map_filterMap]
  refine List.filterMap_congr fun e he => ?_
  simp only [pickEntry, Option.map_map, Function.comp_def, Option.guard, hlook e he]
  cases f e.1 e.2 <;> simp

theorem filterMap_kerase (a : α) (h : l.NodupKeys) :
    (l.kerase a).filterMap (pickEntry f) = (l.filterMap (pickEntry f)).kerase a := by
  induction l with
  | nil => rfl
  | cons e l ih =>
    obtain ⟨a', b⟩ := e
    obtain ⟨hnot, hl⟩ := List.nodupKeys_cons.mp h
    by_cases ha : a = a'
    · subst ha
      rw [List.kerase_cons_eq (s := ⟨a, b⟩) rfl]
      cases hb : f a b with
      | none =>
        rw [List.filterMap_cons_none (by simp [pickEntry, hb])]
        exact (List.kerase_of_notMem_keys fun hmem => hnot ((keys_filterMap_sublist l).subset hmem)).symm
      | some c =>
        rw [List.filterMap_cons_some (b := ⟨a, c⟩) (by simp [pickEntry, hb]), List.kerase_cons_eq (s := ⟨a, c⟩) rfl]
    · rw [List.kerase_cons_ne ha]
      cases hb : f a' b with
      | none =>
        have hnone : pickEntry f ⟨a', b⟩ = none := by simp [pickEntry, hb]
        rw [List.filterMap_cons_none hnone, List.filterMap_cons_none hnone, ih hl]
      | some c =>
        have hsome : pickEntry f ⟨a', b⟩ = some ⟨a', c⟩ := by simp [pickEntry, hb]
        rw [List.filterMap_cons_some hsome, List.filterMap_cons_some hsome, List.kerase_cons_ne ha, ih hl]

/-- **An insertion, seen**: the entry is inserted as it is seen, or erased. -/
theorem pick_insert (s : AList β) (a : α) (b : β a) :
    pick f (s.insert a b) = (f a b).elim ((pick f s).erase a) fun c => (pick f s).insert a c := by
  have hrest := filterMap_kerase (f := f) a s.nodupKeys
  cases hb : f a b with
  | none =>
    refine AList.ext ?_
    show (List.kinsert a b s.entries).filterMap _ = _
    rw [List.kinsert_def, List.filterMap_cons_none (by simp [pickEntry, hb]), hrest]
    rfl
  | some c =>
    refine AList.ext ?_
    show (List.kinsert a b s.entries).filterMap _ = List.kinsert a c _
    rw [List.kinsert_def, List.filterMap_cons_some (b := ⟨a, c⟩) (by simp [pickEntry, hb]), hrest, List.kinsert_def]
    rfl

omit [DecidableEq α] in
theorem pick_pick {δ : α → Type*} (h : ∀ a, γ a → Option (δ a)) (s : AList β) :
    pick h (pick f s) = pick (fun a b => (f a b).bind (h a)) s := by
  refine AList.ext ((List.filterMap_filterMap ..).trans (List.filterMap_congr fun e _ => ?_))
  simp only [pickEntry, Option.bind_map, Option.map_bind]
  rfl

/-- What is never kept does not show. -/
theorem pick_insert_of_never (h : ∀ b, f a b = none) (s : AList β) (b : β a) : pick f (s.insert a b) = pick f s := by
  have hnot : a ∉ (pick f s).keys := by
    rw [← AList.mem_keys, ← AList.lookup_eq_none, lookup_pick]
    cases s.lookup a with
    | none => rfl
    | some b => exact h b
  rw [pick_insert, h, Option.elim_none]
  exact AList.ext (List.kerase_of_notMem_keys hnot)

end NekoGuard.Lib.Pick
