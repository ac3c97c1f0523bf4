import Mathlib.Order.Defs.Unbundled
import Mathlib.Data.List.Sort

/-! Ordered maps as key-sorted entry lists. The order is a parameter, so one
theory serves ascending and descending maps; sortedness is a field. -/
namespace LobCity.Library
variable {κ ν : Type*} {lt : κ → κ → Prop}

structure SortedMap (κ ν : Type*) (lt : κ → κ → Prop) where
  entries : List (κ × ν)
  sorted : entries.Pairwise fun a b => lt a.1 b.1

namespace SortedMap

def empty : SortedMap κ ν lt := ⟨[], List.Pairwise.nil⟩

def isEmpty (m : SortedMap κ ν lt) : Bool := m.entries.isEmpty

@[ext] theorem ext {m m' : SortedMap κ ν lt} (h : m.entries = m'.entries) : m = m' := by
  cases m
  cases m'
  cases h
  rfl

/-- The entry with the least key, `begin()` of an ordered map. -/
def first? (m : SortedMap κ ν lt) : Option (κ × ν) := m.entries.head?

section Lookup
variable [DecidableEq κ]

def find? (m : SortedMap κ ν lt) (k : κ) : Option ν := m.entries.lookup k

theorem lookup_cons (k : κ) (e : κ × ν) (es : List (κ × ν)) :
    (e :: es).lookup k = if k = e.1 then some e.2 else es.lookup k := by
  obtain ⟨k', v⟩ := e
  rw [List.lookup_cons]
  by_cases hk : k = k'
  · simp [hk]
  · have hb : (k == k') = false := by simpa using hk
    simp [hb, hk]

theorem mem_of_lookup {k : κ} {v : ν} {es : List (κ × ν)} (h : es.lookup k = some v) :
    (k, v) ∈ es := by
  induction es with
  | nil => simp at h
  | cons e es ih =>
    rw [lookup_cons] at h
    split_ifs at h with hk
    · exact List.mem_cons.mpr (Or.inl (Prod.ext hk (Option.some.inj h).symm))
    · exact List.mem_cons_of_mem e (ih h)

theorem lookup_of_mem [Std.Irrefl lt] {k : κ} {v : ν} {es : List (κ × ν)}
    (hs : es.Pairwise fun a b => lt a.1 b.1) (h : (k, v) ∈ es) : es.lookup k = some v := by
  induction es with
  | nil => simp at h
  | cons e es ih =>
    obtain ⟨hlt, hes⟩ := List.pairwise_cons.mp hs
    rw [lookup_cons]
    cases List.mem_cons.mp h with
    | inl h =>
      obtain rfl := h
      simp
    | inr h =>
      have hne : k ≠ e.1 := by
        intro he
        exact Std.Irrefl.irrefl k (by simpa [← he] using hlt _ h)
      rw [if_neg hne, ih hes h]

theorem mem_entries_iff [Std.Irrefl lt] (m : SortedMap κ ν lt) (k : κ) (v : ν) :
    (k, v) ∈ m.entries ↔ m.find? k = some v :=
  ⟨lookup_of_mem m.sorted, mem_of_lookup⟩

/-- A map that finds `f k` at the keys of a sorted list, and nothing elsewhere, is that list. -/
theorem entries_eq_map [IsStrictTotalOrder κ lt] (m : SortedMap κ ν lt) {K : List κ} {f : κ → ν}
    (hK : K.Pairwise lt) (hm : ∀ k v, m.find? k = some v ↔ k ∈ K ∧ v = f k) :
    m.entries = K.map fun k => (k, f k) := by
  have hsorted : (K.map fun k => (k, f k)).Pairwise fun a b => lt a.1 b.1 :=
    List.pairwise_map.mpr hK
  have hne : ∀ {a b : κ × ν}, lt a.1 b.1 → a ≠ b := fun {a b} h he =>
    Std.Irrefl.irrefl b.1 (he ▸ h)
  have hmem : ∀ e, e ∈ m.entries ↔ e ∈ K.map fun k => (k, f k) := by
    intro e
    obtain ⟨k, v⟩ := e
    rw [m.mem_entries_iff, hm, List.mem_map]
    constructor
    · intro h
      exact ⟨k, h.1, by rw [h.2]⟩
    · intro h
      obtain ⟨k', hk', he⟩ := h
      obtain ⟨rfl, rfl⟩ := Prod.mk.inj he
      exact ⟨hk', rfl⟩
  have hperm : m.entries.Perm (K.map fun k => (k, f k)) :=
    (List.perm_ext_iff_of_nodup (m.sorted.imp hne) (hsorted.imp hne)).mpr hmem
  exact hperm.eq_of_pairwise (fun a b _ _ hab hba => absurd hba (Std.Asymm.asymm _ _ hab))
    m.sorted hsorted

theorem first?_eq_none (m : SortedMap κ ν lt) (h : m.first? = none) (k : κ) :
    m.find? k = none := by
  have he : m.entries = [] := List.head?_eq_none_iff.mp h
  simp [find?, he]

theorem first?_eq_some (m : SortedMap κ ν lt) {k : κ} {v : ν} (h : m.first? = some (k, v)) :
    m.find? k = some v ∧ ∀ k' v', m.find? k' = some v' → k' = k ∨ lt k k' := by
  obtain ⟨es, he⟩ : ∃ es, m.entries = (k, v) :: es := List.head?_eq_some_iff.mp h
  have hs := m.sorted
  rw [he] at hs
  refine ⟨by simp [find?, he, lookup_cons], ?_⟩
  intro k' v' hk
  have hm := mem_of_lookup hk
  rw [he] at hm
  cases List.mem_cons.mp hm with
  | inl hp =>
    exact Or.inl (Prod.mk.inj hp).1
  | inr hp =>
    exact Or.inr ((List.pairwise_cons.mp hs).1 _ hp)

end Lookup

section Update
variable [DecidableEq κ]

def eraseEntry (k : κ) (es : List (κ × ν)) : List (κ × ν) :=
  es.filter fun e => e.1 ≠ k

def erase (m : SortedMap κ ν lt) (k : κ) : SortedMap κ ν lt :=
  ⟨eraseEntry k m.entries, m.sorted.filter _⟩

theorem lookup_eraseEntry (k k' : κ) (es : List (κ × ν)) :
    (eraseEntry k es).lookup k' = if k' = k then none else es.lookup k' := by
  induction es with
  | nil => simp [eraseEntry]
  | cons e es ih =>
    unfold eraseEntry at ih ⊢
    rw [List.filter_cons, lookup_cons]
    by_cases he : e.1 = k
    · rw [if_neg (by simp [he]), ih]
      by_cases hk : k' = k
      · simp [hk]
      · simp [hk, he]
    · rw [if_pos (by simp [he]), lookup_cons, ih]
      by_cases hk : k' = e.1
      · simp [hk, he]
      · simp [hk]

@[simp] theorem find?_erase (m : SortedMap κ ν lt) (k k' : κ) :
    (m.erase k).find? k' = if k' = k then none else m.find? k' :=
  lookup_eraseEntry k k' m.entries

variable [DecidableRel lt]

/-- Insertion at the key's place; an entry already there is overwritten. -/
def insertEntry (lt : κ → κ → Prop) [DecidableRel lt] (k : κ) (v : ν) :
    List (κ × ν) → List (κ × ν)
  | [] => [(k, v)]
  | e :: es =>
    if e.1 = k then (k, v) :: es
    else if lt k e.1 then (k, v) :: e :: es
    else e :: insertEntry lt k v es

theorem mem_insertEntry {k : κ} {v : ν} {e : κ × ν} {es : List (κ × ν)}
    (h : e ∈ insertEntry lt k v es) : e = (k, v) ∨ e ∈ es := by
  induction es with
  | nil => simpa [insertEntry] using h
  | cons e' es ih =>
    unfold insertEntry at h
    split_ifs at h with hk hlt
    · exact (List.mem_cons.mp h).imp id (List.mem_cons_of_mem e')
    · exact List.mem_cons.mp h
    · cases List.mem_cons.mp h with
      | inl h =>
        exact Or.inr (List.mem_cons.mpr (Or.inl h))
      | inr h =>
        exact (ih h).imp id (List.mem_cons_of_mem e')

theorem insertEntry_sorted [IsStrictTotalOrder κ lt] (k : κ) (v : ν) {es : List (κ × ν)}
    (hs : es.Pairwise fun a b => lt a.1 b.1) :
    (insertEntry lt k v es).Pairwise fun a b => lt a.1 b.1 := by
  induction es with
  | nil => simp [insertEntry]
  | cons e es ih =>
    obtain ⟨hlt, hes⟩ := List.pairwise_cons.mp hs
    unfold insertEntry
    split_ifs with hk hk'
    · exact List.pairwise_cons.mpr ⟨fun a ha => hk ▸ hlt a ha, hes⟩
    · refine List.pairwise_cons.mpr ⟨fun a ha => ?_, hs⟩
      cases List.mem_cons.mp ha with
      | inl h =>
        obtain rfl := h
        exact hk'
      | inr ha =>
        exact IsTrans.trans _ _ _ hk' (hlt a ha)
    · refine List.pairwise_cons.mpr ⟨fun a ha => ?_, ih hes⟩
      cases mem_insertEntry ha with
      | inl heq =>
        obtain rfl := heq
        exact (trichotomous_of lt e.1 k).elim id fun h => h.elim (absurd · hk) (absurd · hk')
      | inr ha =>
        exact hlt a ha

def insert [IsStrictTotalOrder κ lt] (m : SortedMap κ ν lt) (k : κ) (v : ν) :
    SortedMap κ ν lt :=
  ⟨insertEntry lt k v m.entries, insertEntry_sorted k v m.sorted⟩

theorem lookup_insertEntry (k k' : κ) (v : ν) (es : List (κ × ν)) :
    (insertEntry lt k v es).lookup k' = if k' = k then some v else es.lookup k' := by
  induction es with
  | nil => simp [insertEntry, lookup_cons]
  | cons e es ih =>
    unfold insertEntry
    by_cases he : e.1 = k
    · rw [if_pos he, lookup_cons, lookup_cons, he]
      by_cases hk : k' = k <;> simp [hk]
    · rw [if_neg he]
      by_cases hlt : lt k e.1
      · rw [if_pos hlt, lookup_cons]
      · rw [if_neg hlt, lookup_cons, lookup_cons, ih]
        by_cases hk : k' = k
        · have hne : k' ≠ e.1 := fun h => he (h.symm.trans hk)
          simp [hk, Ne.symm he]
        · simp [hk]

@[simp] theorem find?_insert [IsStrictTotalOrder κ lt] (m : SortedMap κ ν lt) (k k' : κ)
    (v : ν) : (m.insert k v).find? k' = if k' = k then some v else m.find? k' :=
  lookup_insertEntry k k' v m.entries

end Update
end SortedMap
end LobCity.Library
