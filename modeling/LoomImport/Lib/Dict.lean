import Mathlib.Data.List.Nodup
import Mathlib.Data.List.Basic
import Mathlib.Data.List.Forall2

/-!
# Dictionaries that keep their insertion order

A `Dict` is a list of key and value pairs in which no key occurs twice: the proof is a field, so a dictionary with a repeated
key cannot be built. Setting a key that is present replaces its value in place; setting a new key appends it. Iteration is over
`entries`, in insertion order.
-/

/-- A dictionary: its entries in insertion order, each key once. -/
structure Dict (κ α : Type) where
  entries : List (κ × α)
  nodup : (entries.map Prod.fst).Nodup

namespace Dict

variable {κ α : Type}

/-- The dictionary with no entry. -/
def empty : Dict κ α := ⟨[], List.nodup_nil⟩

/-- The keys, in insertion order. -/
def keys (d : Dict κ α) : List κ := d.entries.map Prod.fst

/-- The values, in insertion order. -/
def values (d : Dict κ α) : List α := d.entries.map Prod.snd

@[simp] theorem entries_empty : (empty : Dict κ α).entries = [] := rfl

variable [DecidableEq κ]

/-- The value stored under a key, if the key is present. -/
def get? (d : Dict κ α) (k : κ) : Option α := d.entries.lookup k

/-- The value stored under a key, or a default. -/
def getD (d : Dict κ α) (k : κ) (default : α) : α := (d.get? k).getD default

/-- Replace the value of the first entry with the key, or append an entry. -/
def setEntries (k : κ) (v : α) : List (κ × α) → List (κ × α)
  | [] => [(k, v)]
  | e :: es => if e.1 = k then (k, v) :: es else e :: setEntries k v es

/-- The keys of an updated list: the old ones, and the new one when it was absent. -/
theorem map_fst_setEntries (k : κ) (v : α) (es : List (κ × α)) :
    (setEntries k v es).map Prod.fst = if k ∈ es.map Prod.fst then es.map Prod.fst else es.map Prod.fst ++ [k] := by
  induction es with
  | nil => simp [setEntries]
  | cons e es ih =>
    by_cases he : e.1 = k
    · simp [setEntries, he]
    · have hk : ¬k = e.1 := fun h => he h.symm
      simp only [setEntries, he, if_false, List.map_cons, ih, List.mem_cons, hk, false_or]
      split <;> simp

/-- Store a value under a key, in place when the key is present. -/
def set (d : Dict κ α) (k : κ) (v : α) : Dict κ α where
  entries := setEntries k v d.entries
  nodup := by
    rw [map_fst_setEntries]
    split
    · exact d.nodup
    · rename_i h
      exact d.nodup.append (List.nodup_singleton k) (by simpa using h)

/-! ## Reading an update back -/

theorem lookup_setEntries_self (k : κ) (v : α) (es : List (κ × α)) : (setEntries k v es).lookup k = some v := by
  induction es with
  | nil => simp [setEntries]
  | cons e es ih =>
    obtain ⟨k₀, v₀⟩ := e
    by_cases he : k₀ = k
    · simp [setEntries, he]
    · have hk : (k == k₀) = false := by simpa using fun h : k = k₀ => he h.symm
      simp [setEntries, he, List.lookup_cons, hk, ih]

theorem lookup_setEntries_ne {k k' : κ} (h : k' ≠ k) (v : α) (es : List (κ × α)) :
    (setEntries k v es).lookup k' = es.lookup k' := by
  induction es with
  | nil =>
    have hk : (k' == k) = false := by simpa using h
    simp [setEntries, List.lookup_cons, hk]
  | cons e es ih =>
    obtain ⟨k₀, v₀⟩ := e
    by_cases he : k₀ = k
    · have hk : (k' == k) = false := by simpa using h
      simp [setEntries, he, List.lookup_cons, hk]
    · simp [setEntries, he, List.lookup_cons, ih]

@[simp] theorem get?_set_self (d : Dict κ α) (k : κ) (v : α) : (d.set k v).get? k = some v :=
  lookup_setEntries_self k v d.entries

theorem get?_set_ne (d : Dict κ α) {k k' : κ} (h : k' ≠ k) (v : α) : (d.set k v).get? k' = d.get? k' :=
  lookup_setEntries_ne h v d.entries

@[simp] theorem get?_empty (k : κ) : (empty : Dict κ α).get? k = none := rfl

/-! ## Entries and lookups -/

theorem mem_of_lookup {k : κ} {v : α} {es : List (κ × α)} (h : es.lookup k = some v) : (k, v) ∈ es := by
  induction es with
  | nil => simp at h
  | cons e es ih =>
    obtain ⟨k₀, v₀⟩ := e
    by_cases hk : k = k₀
    · subst hk
      simp only [List.lookup_cons, beq_self_eq_true] at h
      simp [← Option.some.inj h]
    · have hk' : (k == k₀) = false := by simpa using hk
      simp only [List.lookup_cons, hk'] at h
      exact List.mem_cons_of_mem _ (ih h)

theorem lookup_of_mem {k : κ} {v : α} {es : List (κ × α)} (hn : (es.map Prod.fst).Nodup) (h : (k, v) ∈ es) :
    es.lookup k = some v := by
  induction es with
  | nil => simp at h
  | cons e es ih =>
    obtain ⟨k₀, v₀⟩ := e
    rw [List.map_cons, List.nodup_cons] at hn
    rcases List.mem_cons.1 h with hm | hm
    · cases hm
      simp
    · have hk : k ≠ k₀ := by
        intro hk
        exact hn.1 (hk ▸ List.mem_map.2 ⟨(k, v), hm, rfl⟩)
      have hk' : (k == k₀) = false := by simpa using hk
      simp [List.lookup_cons, hk', ih hn.2 hm]

/-- Looking up in mapped entries. -/
theorem lookup_map {β : Type} (f : α → β) (k : κ) (es : List (κ × α)) :
    (es.map fun e => (e.1, f e.2)).lookup k = (es.lookup k).map f := by
  induction es with
  | nil => rfl
  | cons e es ih =>
    obtain ⟨k₀, v₀⟩ := e
    by_cases hk : k = k₀
    · subst hk
      simp
    · have hk' : (k == k₀) = false := by simpa using hk
      simp [List.lookup_cons, hk', ih]

/-- A key is bound to a value exactly when the pair is an entry. -/
theorem get?_eq_some_iff (d : Dict κ α) (k : κ) (v : α) : d.get? k = some v ↔ (k, v) ∈ d.entries :=
  ⟨mem_of_lookup, lookup_of_mem d.nodup⟩

theorem mem_entries_of_get? {d : Dict κ α} {k : κ} {v : α} (h : d.get? k = some v) : (k, v) ∈ d.entries :=
  (d.get?_eq_some_iff k v).1 h

theorem get?_of_mem {d : Dict κ α} {k : κ} {v : α} (h : (k, v) ∈ d.entries) : d.get? k = some v :=
  (d.get?_eq_some_iff k v).2 h

theorem get?_eq_none_iff (d : Dict κ α) (k : κ) : d.get? k = none ↔ k ∉ d.keys := by
  constructor
  · intro h hk
    obtain ⟨⟨k', v⟩, hm, rfl⟩ := List.mem_map.1 hk
    rw [get?_of_mem hm] at h
    cases h
  · intro h
    cases hv : d.get? k with
    | none => rfl
    | some v => exact absurd (List.mem_map.2 ⟨(k, v), mem_entries_of_get? hv, rfl⟩) h

/-- Setting an absent key appends its entry. -/
theorem entries_set_of_notMem {d : Dict κ α} {k : κ} (h : k ∉ d.keys) (v : α) :
    (d.set k v).entries = d.entries ++ [(k, v)] := by
  have key : ∀ es : List (κ × α), k ∉ es.map Prod.fst → setEntries k v es = es ++ [(k, v)] := by
    intro es
    induction es with
    | nil => intro _; rfl
    | cons e es ih =>
      intro he
      simp only [List.map_cons, List.mem_cons, not_or] at he
      have h1 : ¬e.1 = k := fun h => he.1 h.symm
      simp [setEntries, h1, ih he.2]
  exact key d.entries h

/-- Setting a present key replaces its entry and leaves the others where they were. -/
theorem entries_set_of_get? {d : Dict κ α} {k : κ} {u : α} (h : d.get? k = some u) (v : α) :
    ∃ before after, d.entries = before ++ (k, u) :: after ∧ (d.set k v).entries = before ++ (k, v) :: after := by
  have key : ∀ es : List (κ × α), es.lookup k = some u →
      ∃ before after, es = before ++ (k, u) :: after ∧ setEntries k v es = before ++ (k, v) :: after := by
    intro es
    induction es with
    | nil => intro he; simp at he
    | cons e es ih =>
      intro he
      obtain ⟨k₀, v₀⟩ := e
      by_cases h1 : k₀ = k
      · refine ⟨[], es, ?_, by simp [setEntries, h1]⟩
        subst h1
        simp only [List.lookup_cons, beq_self_eq_true] at he
        simp [← Option.some.inj he]
      · have hk : (k == k₀) = false := by simpa using fun h : k = k₀ => h1 h.symm
        simp only [List.lookup_cons, hk] at he
        obtain ⟨before, after, h2, h3⟩ := ih he
        exact ⟨(k₀, v₀) :: before, after, by simp [h2], by simp [setEntries, h1, h3]⟩
  exact key d.entries h

/-! ## Combining the values of a key -/

/-- Store a value under a key, combined with the value that is there. -/
def upsert (combine : α → α → α) (d : Dict κ α) (k : κ) (v : α) : Dict κ α :=
  d.set k (match d.get? k with
    | none => v
    | some old => combine old v)

/-- A value under an absent key comes last. -/
theorem entries_upsert_of_notMem (combine : α → α → α) {d : Dict κ α} {k : κ} (h : k ∉ d.keys) (v : α) :
    (d.upsert combine k v).entries = d.entries ++ [(k, v)] := by
  unfold upsert
  rw [(d.get?_eq_none_iff k).2 h]
  exact entries_set_of_notMem h v

/-- A value under a present key is combined in place. -/
theorem entries_upsert_of_mem (combine : α → α → α) {d : Dict κ α} {k : κ} (h : k ∈ d.keys) (v : α) :
    ∃ before old after, d.entries = before ++ (k, old) :: after ∧
      (d.upsert combine k v).entries = before ++ (k, combine old v) :: after := by
  cases hget : d.get? k with
  | none => exact absurd h ((d.get?_eq_none_iff k).1 hget)
  | some old =>
    obtain ⟨before, after, hold, hnew⟩ := entries_set_of_get? hget (combine old v)
    refine ⟨before, old, after, hold, ?_⟩
    unfold upsert
    rw [hget]
    exact hnew

/-- Combining into a dictionary leaves it with an entry. -/
theorem entries_upsert_ne_nil (combine : α → α → α) (d : Dict κ α) (k : κ) (v : α) : (d.upsert combine k v).entries ≠ [] := by
  by_cases h : k ∈ d.keys
  · obtain ⟨before, old, after, -, hnew⟩ := entries_upsert_of_mem combine h v
    rw [hnew]
    exact List.append_ne_nil_of_right_ne_nil _ (List.cons_ne_nil _ _)
  · rw [entries_upsert_of_notMem combine h]
    exact List.append_ne_nil_of_right_ne_nil _ (List.cons_ne_nil _ _)

/-- What holds of values and of their combinations holds of the values that are combined into a dictionary. -/
theorem forall_values_upsert {combine : α → α → α} {P : α → Prop} (hcombine : ∀ {a b}, P a → P b → P (combine a b))
    {d : Dict κ α} (hd : ∀ v ∈ d.values, P v) {k : κ} {v : α} (hv : P v) : ∀ u ∈ (d.upsert combine k v).values, P u := by
  intro u hu
  obtain ⟨e, he, rfl⟩ := List.mem_map.1 hu
  have hold : ∀ {e}, e ∈ d.entries → P e.2 := fun he => hd _ (List.mem_map.2 ⟨_, he, rfl⟩)
  by_cases h : k ∈ d.keys
  · obtain ⟨before, old, after, hentries, hnew⟩ := entries_upsert_of_mem combine h v
    rw [hentries] at hold
    rw [hnew] at he
    rcases List.mem_append.1 he with he | he
    · exact hold (List.mem_append_left _ he)
    · rcases List.mem_cons.1 he with rfl | he
      · exact hcombine (hold (List.mem_append_right _ List.mem_cons_self)) hv
      · exact hold (List.mem_append_right _ (List.mem_cons_of_mem _ he))
  · rw [entries_upsert_of_notMem combine h] at he
    rcases List.mem_append.1 he with he | he
    · exact hold he
    · rw [List.mem_singleton.1 he]
      exact hv

/-- A value that is combined into a dictionary is there, by itself or combined. -/
theorem mem_values_upsert_new (combine : α → α → α) (d : Dict κ α) (k : κ) (v : α) :
    ∃ u ∈ (d.upsert combine k v).values, u = v ∨ ∃ old, u = combine old v := by
  by_cases h : k ∈ d.keys
  · obtain ⟨before, old, after, -, hnew⟩ := entries_upsert_of_mem combine h v
    refine ⟨combine old v, List.mem_map.2 ⟨(k, combine old v), ?_, rfl⟩, Or.inr ⟨old, rfl⟩⟩
    rw [hnew]
    exact List.mem_append_right _ List.mem_cons_self
  · refine ⟨v, List.mem_map.2 ⟨(k, v), ?_, rfl⟩, Or.inl rfl⟩
    rw [entries_upsert_of_notMem combine h]
    exact List.mem_append_right _ List.mem_cons_self

/-- A value of a dictionary is there after a combination, by itself or combined. -/
theorem mem_values_upsert_old (combine : α → α → α) {d : Dict κ α} (k : κ) (v : α) {u : α} (hu : u ∈ d.values) :
    u ∈ (d.upsert combine k v).values ∨ combine u v ∈ (d.upsert combine k v).values := by
  obtain ⟨e, he, rfl⟩ := List.mem_map.1 hu
  by_cases h : k ∈ d.keys
  · obtain ⟨before, old, after, hentries, hnew⟩ := entries_upsert_of_mem combine h v
    unfold values
    rw [hnew, List.map_append, List.map_cons]
    rw [hentries] at he
    rcases List.mem_append.1 he with he | he
    · exact Or.inl (List.mem_append_left _ (List.mem_map_of_mem he))
    · rcases List.mem_cons.1 he with rfl | he
      · exact Or.inr (List.mem_append_right _ List.mem_cons_self)
      · exact Or.inl (List.mem_append_right _ (List.mem_cons_of_mem _ (List.mem_map_of_mem he)))
  · left
    unfold values
    rw [entries_upsert_of_notMem combine h, List.map_append]
    exact List.mem_append_left _ (List.mem_map_of_mem he)

section Related

variable {β : Type} {R : κ → α → β → Prop}

/-- Two dictionaries have the same keys in the same order, with related values. -/
def Related (R : κ → α → β → Prop) (d : Dict κ α) (d' : Dict κ β) : Prop :=
  List.Forall₂ (fun e e' => e.1 = e'.1 ∧ R e.1 e.2 e'.2) d.entries d'.entries

theorem related_lookup {es : List (κ × α)} {es' : List (κ × β)}
    (h : List.Forall₂ (fun e e' => e.1 = e'.1 ∧ R e.1 e.2 e'.2) es es') (k : κ) :
    (es.lookup k = none ∧ es'.lookup k = none) ∨ ∃ v v', es.lookup k = some v ∧ es'.lookup k = some v' ∧ R k v v' := by
  induction h with
  | nil => exact Or.inl ⟨rfl, rfl⟩
  | @cons e e' es es' he _ ih =>
    obtain ⟨k₁, v₁⟩ := e
    obtain ⟨k₂, v₂⟩ := e'
    obtain ⟨hk, hr⟩ := he
    simp only at hk
    subst hk
    by_cases h1 : k = k₁
    · subst h1
      exact Or.inr ⟨v₁, v₂, by simp, by simp, hr⟩
    · have hk' : (k == k₁) = false := by simpa using h1
      simp only [List.lookup_cons, hk']
      exact ih

theorem related_setEntries {es : List (κ × α)} {es' : List (κ × β)}
    (h : List.Forall₂ (fun e e' => e.1 = e'.1 ∧ R e.1 e.2 e'.2) es es') {k : κ} {v : α} {v' : β} (hv : R k v v') :
    List.Forall₂ (fun e e' => e.1 = e'.1 ∧ R e.1 e.2 e'.2) (setEntries k v es) (setEntries k v' es') := by
  induction h with
  | nil => exact List.Forall₂.cons ⟨rfl, hv⟩ List.Forall₂.nil
  | @cons e e' es es' he hes ih =>
    obtain ⟨hk, hr⟩ := he
    by_cases h1 : e.1 = k
    · rw [setEntries, setEntries, if_pos h1, if_pos (hk ▸ h1)]
      exact List.Forall₂.cons ⟨rfl, hv⟩ hes
    · rw [setEntries, setEntries, if_neg h1, if_neg (hk ▸ h1)]
      exact List.Forall₂.cons ⟨hk, hr⟩ ih

/-- Combining related values into related dictionaries. -/
theorem Related.upsert {d : Dict κ α} {d' : Dict κ β} (h : Related R d d') {combine : α → α → α} {combine' : β → β → β}
    (hcombine : ∀ {k a b a' b'}, R k a a' → R k b b' → R k (combine a b) (combine' a' b')) {k : κ} {v : α} {v' : β}
    (hv : R k v v') : Related R (d.upsert combine k v) (d'.upsert combine' k v') := by
  refine related_setEntries h ?_
  rcases related_lookup h k with ⟨hnone, hnone'⟩ | ⟨old, old', hold, hold', hr⟩
  · have hget : d.get? k = none := hnone
    have hget' : d'.get? k = none := hnone'
    rw [hget, hget']
    exact hv
  · have hget : d.get? k = some old := hold
    have hget' : d'.get? k = some old' := hold'
    rw [hget, hget']
    exact hcombine hr hv

end Related

/-! ## Filling a dictionary -/

section Fill

variable {β : Type} {f : β → κ} {g : β → α}

/-- An entry of a dictionary that is filled from a list comes from the list, or was there. -/
theorem get?_foldl_set {l : List β} {d : Dict κ α} {k : κ} {v : α}
    (h : (l.foldl (fun d b => d.set (f b) (g b)) d).get? k = some v) :
    d.get? k = some v ∨ ∃ b ∈ l, f b = k ∧ g b = v := by
  induction l generalizing d with
  | nil => exact Or.inl h
  | cons b l ih =>
    rcases ih h with h' | ⟨b', hb', hk⟩
    · by_cases hb : k = f b
      · subst hb
        rw [get?_set_self] at h'
        exact Or.inr ⟨b, List.mem_cons_self, rfl, Option.some.inj h'⟩
      · rw [get?_set_ne d hb] at h'
        exact Or.inl h'
    · exact Or.inr ⟨b', List.mem_cons_of_mem _ hb', hk⟩

/-- A key that is there stays. -/
theorem isSome_get?_set {d : Dict κ α} {k : κ} (h : (d.get? k).isSome = true) (k' : κ) (v : α) :
    ((d.set k' v).get? k).isSome = true := by
  by_cases hk : k = k'
  · subst hk
    rw [get?_set_self]
    rfl
  · rw [get?_set_ne d hk]
    exact h

/-- Every element of the list has an entry. -/
theorem isSome_get?_foldl_set {l : List β} {d : Dict κ α} {k : κ}
    (h : (d.get? k).isSome = true ∨ ∃ b ∈ l, f b = k) :
    ((l.foldl (fun d b => d.set (f b) (g b)) d).get? k).isSome = true := by
  induction l generalizing d with
  | nil => exact h.resolve_right fun ⟨b, hb, _⟩ => nomatch hb
  | cons b l ih =>
    refine ih ?_
    rcases h with h | ⟨b', hb', rfl⟩
    · exact Or.inl (isSome_get?_set h _ _)
    · rcases List.mem_cons.1 hb' with rfl | hb'
      · refine Or.inl ?_
        rw [get?_set_self]
        rfl
      · exact Or.inr ⟨b', hb', rfl⟩

end Fill

end Dict
