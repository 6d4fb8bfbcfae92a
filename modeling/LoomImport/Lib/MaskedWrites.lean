import LoomImport.Lib.Dict
import LoomImport.Lib.Words

/-!
# Masked writes to a memory

A masked write replaces some bits of one word. A list of them, one after the other, can be regrouped by address, and can be turned
into whole-word writes that all read the memory before the first: each completes its word with the writes before it.
-/

namespace MaskedWrites

open Words

/-- A write of the bits of a word that the mask selects. -/
structure Write (w : Nat) where
  address : Nat
  mask : BitVec w
  data : BitVec w

variable {w : Nat}

namespace Write

/-- The memory after a write. -/
def apply (write : Write w) (memory : Nat → BitVec w) : Nat → BitVec w :=
  fun a => if a = write.address then merge (memory a) write.mask write.data else memory a

/-- One write for two to the same address. -/
def join (first second : Write w) : Write w where
  address := first.address
  mask := first.mask ||| second.mask
  data := merge first.data second.mask second.data

/-- Two writes that do not meet: at different addresses, or of no bits. -/
def Apart (x y : Write w) : Prop := x.address ≠ y.address ∨ x.mask = 0 ∨ y.mask = 0

variable {x y : Write w} {memory : Nat → BitVec w}

theorem apply_self (x : Write w) (memory : Nat → BitVec w) :
    x.apply memory x.address = merge (memory x.address) x.mask x.data := if_pos rfl

theorem apply_ne {a : Nat} (h : a ≠ x.address) : x.apply memory a = memory a := if_neg h

/-- A write of no bits changes nothing. -/
theorem apply_of_mask_zero (h : x.mask = 0) (memory : Nat → BitVec w) : x.apply memory = memory := by
  funext a
  unfold apply
  rw [h, merge_zero, ite_self]

theorem apply_join (h : x.address = y.address) : (x.join y).apply memory = y.apply (x.apply memory) := by
  funext a
  by_cases ha : a = x.address
  · subst ha
    have hx : (x.join y).apply memory x.address = merge (memory x.address) (x.mask ||| y.mask) (merge x.data y.mask y.data) :=
      apply_self (x.join y) memory
    rw [hx, ← merge_merge, ← apply_self x memory]
    exact (if_pos h).symm
  · have hy : a ≠ y.address := h ▸ ha
    rw [apply_ne (x := x.join y) ha, apply_ne hy, apply_ne ha]

/-- Writes that do not meet commute. -/
theorem apply_comm (h : Apart x y) : y.apply (x.apply memory) = x.apply (y.apply memory) := by
  rcases h with h | h | h
  · funext a
    by_cases ha : a = x.address
    · subst ha
      rw [apply_ne h, apply_self, apply_self, apply_ne h]
    · by_cases hb : a = y.address
      · subst hb
        rw [apply_ne ha, apply_self, apply_self, apply_ne ha]
      · rw [apply_ne ha, apply_ne hb, apply_ne ha, apply_ne hb]
  · rw [apply_of_mask_zero h, apply_of_mask_zero h]
  · rw [apply_of_mask_zero h, apply_of_mask_zero h]

theorem Apart.symm (h : Apart x y) : Apart y x := by
  rcases h with h | h | h
  · exact Or.inl (Ne.symm h)
  · exact Or.inr (Or.inr h)
  · exact Or.inr (Or.inl h)

end Write

/-! ## Writes in order -/

/-- The memory after some writes, the first one first. -/
def applyAll (writes : List (Write w)) (memory : Nat → BitVec w) : Nat → BitVec w :=
  writes.foldl (fun memory write => write.apply memory) memory

@[simp] theorem applyAll_nil (memory : Nat → BitVec w) : applyAll [] memory = memory := rfl

@[simp] theorem applyAll_cons (write : Write w) (writes : List (Write w)) (memory : Nat → BitVec w) :
    applyAll (write :: writes) memory = applyAll writes (write.apply memory) := rfl

@[simp] theorem applyAll_append (first second : List (Write w)) (memory : Nat → BitVec w) :
    applyAll (first ++ second) memory = applyAll second (applyAll first memory) := List.foldl_append

/-- A write that does not meet any of some others may come after them. -/
theorem applyAll_comm {write : Write w} {writes : List (Write w)} (h : ∀ other ∈ writes, write.Apart other)
    (memory : Nat → BitVec w) : applyAll writes (write.apply memory) = write.apply (applyAll writes memory) := by
  induction writes generalizing memory with
  | nil => rfl
  | cons other writes ih =>
    rw [applyAll_cons, applyAll_cons, Write.apply_comm (h other List.mem_cons_self),
      ih fun other ho => h other (List.mem_cons_of_mem _ ho)]

/-! ## Writes by key -/

section Grouped

variable {κ : Type} [DecidableEq κ]

/-- What a key says of the writes under it: two under one key are to one address, two under different keys do not meet, and what
is said of two holds of them joined. -/
structure Keyed (fits : κ → Write w → Prop) : Prop where
  address_eq : ∀ {k x y}, fits k x → fits k y → x.address = y.address
  apart : ∀ {k k' x y}, k ≠ k' → fits k x → fits k' y → x.Apart y
  join : ∀ {k x y}, fits k x → fits k y → fits k (x.join y)

/-- The writes under each key joined, in the order of the first under each key. -/
def group (writes : List (κ × Write w)) : Dict κ (Write w) :=
  writes.foldl (fun grouped write => grouped.upsert Write.join write.1 write.2) Dict.empty

/-- One more write. -/
theorem group_snoc (writes : List (κ × Write w)) (write : κ × Write w) :
    group (writes ++ [write]) = (group writes).upsert Write.join write.1 write.2 := by
  unfold group
  rw [List.foldl_append]
  rfl

variable {fits : κ → Write w → Prop}

/-- One more write to a grouped memory. -/
theorem applyAll_upsert (hfits : Keyed fits) {d : Dict κ (Write w)} (hd : ∀ e ∈ d.entries, fits e.1 e.2) {k : κ} {write : Write w}
    (hw : fits k write) (memory : Nat → BitVec w) :
    applyAll ((d.upsert Write.join k write).entries.map Prod.snd) memory =
        write.apply (applyAll (d.entries.map Prod.snd) memory) ∧
      ∀ e ∈ (d.upsert Write.join k write).entries, fits e.1 e.2 := by
  by_cases hk : k ∈ d.keys
  · obtain ⟨before, old, after, hold, hnew⟩ := Dict.entries_upsert_of_mem Write.join hk write
    have hmem : fits k old := hd (k, old) (hold ▸ List.mem_append_right _ List.mem_cons_self)
    -- the writes after the one that is joined are under other keys
    have hafter : ∀ other ∈ after.map Prod.snd, write.Apart other := by
      intro other ho
      obtain ⟨e, he, rfl⟩ := List.mem_map.1 ho
      have hfe : fits e.1 e.2 := hd e (hold ▸ List.mem_append_right _ (List.mem_cons_of_mem _ he))
      refine hfits.apart ?_ hw hfe
      rintro rfl
      have hnodup := d.nodup
      rw [hold, List.map_append, List.map_cons] at hnodup
      exact (List.nodup_cons.1 (List.nodup_append.1 hnodup).2.1).1 (List.mem_map.2 ⟨e, he, rfl⟩)
    constructor
    · rw [hold, hnew]
      simp only [List.map_append, List.map_cons, applyAll_append, applyAll_cons]
      rw [Write.apply_join (hfits.address_eq hmem hw), applyAll_comm hafter]
    · rw [hnew]
      intro e he
      rcases List.mem_append.1 he with he | he
      · exact hd e (hold ▸ List.mem_append_left _ he)
      · rcases List.mem_cons.1 he with rfl | he
        · exact hfits.join hmem hw
        · exact hd e (hold ▸ List.mem_append_right _ (List.mem_cons_of_mem _ he))
  · rw [Dict.entries_upsert_of_notMem Write.join hk write]
    constructor
    · rw [List.map_append, applyAll_append]
      rfl
    · intro e he
      rcases List.mem_append.1 he with he | he
      · exact hd e he
      · rw [List.mem_singleton] at he
        exact he ▸ hw

/-- Grouped writes do what they do one by one. -/
theorem applyAll_group (hfits : Keyed fits) {writes : List (κ × Write w)} (hwrites : ∀ e ∈ writes, fits e.1 e.2) (memory : Nat → BitVec w) :
    applyAll ((group writes).entries.map Prod.snd) memory = applyAll (writes.map Prod.snd) memory ∧
      ∀ e ∈ (group writes).entries, fits e.1 e.2 := by
  induction writes using List.reverseRecOn with
  | nil => exact ⟨rfl, fun e he => nomatch he⟩
  | append_singleton writes write ih =>
    obtain ⟨hsame, hentries⟩ := ih fun e he => hwrites e (List.mem_append_left _ he)
    have hlast := hwrites write (List.mem_append_right _ (List.mem_singleton_self _))
    obtain ⟨hupsert, hall⟩ := applyAll_upsert hfits hentries hlast memory
    rw [group_snoc]
    refine ⟨?_, hall⟩
    rw [hupsert, hsame, List.map_append, applyAll_append]
    rfl

end Grouped

/-! ## Whole words -/

/-- A write of a whole word, when it is enabled. -/
structure WordWrite (w : Nat) where
  enable : Bool
  address : Nat
  data : BitVec w

/-- The memory after a write of a whole word. -/
def WordWrite.commit (write : WordWrite w) (memory : Nat → BitVec w) : Nat → BitVec w :=
  fun a => if write.enable ∧ a = write.address then write.data else memory a

section Complete

variable {τ : Type}

/-- The word at the address of a write after the writes before it, over the memory before the first: those that are skipped are
passed over. -/
def accumulated (skip : τ → τ → Bool) (memory : Nat → BitVec w) (earlier : List (τ × Write w)) (current : τ × Write w) :
    BitVec w :=
  earlier.foldl (fun word e =>
    if skip current.1 e.1 then word
    else if e.2.address = current.2.address ∧ e.2.mask ≠ 0 then merge word e.2.mask e.2.data else word)
    (memory current.2.address)

/-- The write of the whole word. -/
def complete (skip : τ → τ → Bool) (memory : Nat → BitVec w) (earlier : List (τ × Write w)) (current : τ × Write w) :
    WordWrite w where
  enable := current.2.mask ≠ 0
  address := current.2.address
  data := merge (accumulated skip memory earlier current) current.2.mask current.2.data

/-- The writes of whole words for some writes that come after others. -/
def completeAll (skip : τ → τ → Bool) (memory : Nat → BitVec w) :
    List (τ × Write w) → List (τ × Write w) → List (WordWrite w)
  | _, [] => []
  | earlier, current :: rest =>
    complete skip memory earlier current :: completeAll skip memory (earlier ++ [current]) rest

variable {skip : τ → τ → Bool}

/-- A write that is passed over does not meet an enabled one: the accumulated word is the one that is there. -/
theorem accumulated_eq {current : τ × Write w} (hmask : current.2.mask ≠ 0) {earlier : List (τ × Write w)}
    (hskip : ∀ e ∈ earlier, skip current.1 e.1 = true → current.2.Apart e.2) (memory : Nat → BitVec w) :
    accumulated skip memory earlier current = applyAll (earlier.map Prod.snd) memory current.2.address := by
  unfold accumulated
  induction earlier generalizing memory with
  | nil => rfl
  | cons e earlier ih =>
    have hstep : (if skip current.1 e.1 then memory current.2.address
        else if e.2.address = current.2.address ∧ e.2.mask ≠ 0 then merge (memory current.2.address) e.2.mask e.2.data
        else memory current.2.address) = e.2.apply memory current.2.address := by
      cases hs : skip current.1 e.1 with
      | true =>
        rw [if_pos rfl]
        rcases hskip e List.mem_cons_self hs with h | h | h
        · exact (Write.apply_ne h).symm
        · exact absurd h hmask
        · rw [Write.apply_of_mask_zero h]
      | false =>
        rw [if_neg Bool.false_ne_true]
        by_cases ha : e.2.address = current.2.address
        · by_cases hm : e.2.mask = 0
          · rw [if_neg fun h => h.2 hm, Write.apply_of_mask_zero hm]
          · rw [if_pos ⟨ha, hm⟩, ← ha, Write.apply_self]
        · rw [if_neg fun h => ha h.1, Write.apply_ne fun h => ha h.symm]
    rw [List.foldl_cons, hstep]
    exact ih (fun e' he => hskip e' (List.mem_cons_of_mem _ he)) (e.2.apply memory)

/-- Committing a completed word is the masked write. -/
theorem commit_complete {current : τ × Write w} {earlier : List (τ × Write w)}
    (hskip : ∀ e ∈ earlier, skip current.1 e.1 = true → current.2.Apart e.2) (memory : Nat → BitVec w) :
    (complete skip memory earlier current).commit (applyAll (earlier.map Prod.snd) memory) =
      current.2.apply (applyAll (earlier.map Prod.snd) memory) := by
  by_cases hmask : current.2.mask = 0
  · rw [Write.apply_of_mask_zero hmask]
    funext a
    exact if_neg fun h => absurd hmask (of_decide_eq_true h.1)
  · funext a
    by_cases ha : a = current.2.address
    · subst ha
      rw [Write.apply_self, ← accumulated_eq hmask hskip]
      exact if_pos ⟨decide_eq_true hmask, rfl⟩
    · rw [Write.apply_ne ha]
      exact if_neg fun h => ha h.2

/-- Committing the completed words in order is the masked writes in order, when the writes that are passed over do not meet. -/
theorem commit_completeAll (memory : Nat → BitVec w) {earlier rest : List (τ × Write w)}
    (hskip : ∀ x ∈ earlier ++ rest, ∀ y ∈ earlier ++ rest, skip x.1 y.1 = true → x.2.Apart y.2) :
    (completeAll skip memory earlier rest).foldl (fun memory write => write.commit memory)
        (applyAll (earlier.map Prod.snd) memory) =
      applyAll ((earlier ++ rest).map Prod.snd) memory := by
  induction rest generalizing earlier with
  | nil => rw [List.append_nil]; rfl
  | cons current rest ih =>
    have happend : earlier ++ [current] ++ rest = earlier ++ current :: rest := by simp
    have hcurrent : current ∈ earlier ++ current :: rest := List.mem_append_right _ List.mem_cons_self
    rw [completeAll, List.foldl_cons,
      commit_complete fun e he => hskip current hcurrent e (List.mem_append_left _ he)]
    have hnext : current.2.apply (applyAll (earlier.map Prod.snd) memory) =
        applyAll ((earlier ++ [current]).map Prod.snd) memory := by
      rw [List.map_append, applyAll_append]
      rfl
    rw [hnext, ih (happend.symm ▸ hskip), happend]

end Complete

end MaskedWrites
