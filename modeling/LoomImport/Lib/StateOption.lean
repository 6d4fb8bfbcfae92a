import Mathlib.Data.List.Basic
import Mathlib.Control.Lawful

/-!
# Weakest preconditions for a state and a possible absence of result

Rules for computations `StateT σ Option α`: a run from a state gives a value and a new state, or nothing. `wlp` says that every
result satisfies a postcondition (and nothing when there is none); `wp` says that there is a result and it does. Both are
functions of the state the run starts from, and both distribute over `bind`, so a proof follows the program.
-/

namespace StateOption

variable {σ α β : Type}

/-- Every result of the run satisfies the postcondition. -/
def wlp (m : StateT σ Option α) (Q : α → σ → Prop) (s : σ) : Prop := ∀ a s', m s = some (a, s') → Q a s'

/-- The run has a result, and it satisfies the postcondition. -/
def wp (m : StateT σ Option α) (Q : α → σ → Prop) (s : σ) : Prop := ∃ a s', m s = some (a, s') ∧ Q a s'

/-! ## Consequence -/

theorem wlp_mono {m : StateT σ Option α} {Q R : α → σ → Prop} {s : σ} (h : wlp m Q s)
    (hqr : ∀ a s', Q a s' → R a s') : wlp m R s :=
  fun a s' hm => hqr a s' (h a s' hm)

theorem wp_mono {m : StateT σ Option α} {Q R : α → σ → Prop} {s : σ} (h : wp m Q s)
    (hqr : ∀ a s', Q a s' → R a s') : wp m R s := by
  obtain ⟨a, s', hm, hq⟩ := h
  exact ⟨a, s', hm, hqr a s' hq⟩

/-- Two postconditions of one run hold together. -/
theorem wlp_and {m : StateT σ Option α} {Q R : α → σ → Prop} {s : σ} (hq : wlp m Q s) (hr : wlp m R s) :
    wlp m (fun a s' => Q a s' ∧ R a s') s :=
  fun a s' hm => ⟨hq a s' hm, hr a s' hm⟩

/-- A run that has a result satisfies whatever all its results satisfy. -/
theorem wp_and_wlp {m : StateT σ Option α} {Q R : α → σ → Prop} {s : σ} (hq : wp m Q s) (hr : wlp m R s) :
    wp m (fun a s' => Q a s' ∧ R a s') s := by
  obtain ⟨a, s', hm, h⟩ := hq
  exact ⟨a, s', hm, h, hr a s' hm⟩

/-- A run has one result. -/
theorem wlp_of_wp {m : StateT σ Option α} {Q : α → σ → Prop} {s : σ} (h : wp m Q s) : wlp m Q s := by
  obtain ⟨a, s', hm, hq⟩ := h
  intro a' s'' hm'
  rw [hm] at hm'
  cases hm'
  exact hq

/-! ## The primitives -/

@[simp] theorem wlp_pure {a : α} {Q : α → σ → Prop} {s : σ} : wlp (pure a) Q s ↔ Q a s := by
  constructor
  · intro h
    exact h a s rfl
  · intro h a' s' e
    cases e
    exact h

@[simp] theorem wp_pure {a : α} {Q : α → σ → Prop} {s : σ} : wp (pure a) Q s ↔ Q a s := by
  constructor
  · rintro ⟨a', s', e, h⟩
    cases e
    exact h
  · exact fun h => ⟨a, s, rfl, h⟩

theorem bind_apply (m : StateT σ Option α) (f : α → StateT σ Option β) (s : σ) :
    (m >>= f) s = (m s).bind fun p => f p.1 p.2 := rfl

theorem map_apply (f : α → β) (m : StateT σ Option α) (s : σ) :
    (f <$> m) s = (m s).map fun p => (f p.1, p.2) := by
  cases h : m s with
  | none => simp [Functor.map, StateT.map, h]
  | some p => simp [Functor.map, StateT.map, h]

@[simp] theorem wlp_bind {m : StateT σ Option α} {f : α → StateT σ Option β} {Q : β → σ → Prop} {s : σ} :
    wlp (m >>= f) Q s ↔ wlp m (fun a s' => wlp (f a) Q s') s := by
  constructor
  · intro h a s₁ hm b s₂ hf
    exact h b s₂ (by rw [bind_apply, hm]; exact hf)
  · intro h b s₂ e
    rw [bind_apply, Option.bind_eq_some_iff] at e
    obtain ⟨⟨a, s₁⟩, hm, hf⟩ := e
    exact h a s₁ hm b s₂ hf

@[simp] theorem wp_bind {m : StateT σ Option α} {f : α → StateT σ Option β} {Q : β → σ → Prop} {s : σ} :
    wp (m >>= f) Q s ↔ wp m (fun a s' => wp (f a) Q s') s := by
  constructor
  · rintro ⟨b, s₂, e, hq⟩
    rw [bind_apply, Option.bind_eq_some_iff] at e
    obtain ⟨⟨a, s₁⟩, hm, hf⟩ := e
    exact ⟨a, s₁, hm, b, s₂, hf, hq⟩
  · rintro ⟨a, s₁, hm, b, s₂, hf, hq⟩
    exact ⟨b, s₂, by rw [bind_apply, hm]; exact hf, hq⟩

@[simp] theorem wlp_map {m : StateT σ Option α} {f : α → β} {Q : β → σ → Prop} {s : σ} :
    wlp (f <$> m) Q s ↔ wlp m (fun a s' => Q (f a) s') s := by
  rw [← bind_pure_comp, wlp_bind]
  simp only [wlp_pure]

@[simp] theorem wp_map {m : StateT σ Option α} {f : α → β} {Q : β → σ → Prop} {s : σ} :
    wp (f <$> m) Q s ↔ wp m (fun a s' => Q (f a) s') s := by
  rw [← bind_pure_comp, wp_bind]
  simp only [wp_pure]

@[simp] theorem wlp_get {Q : σ → σ → Prop} {s : σ} : wlp (get : StateT σ Option σ) Q s ↔ Q s s := by
  constructor
  · exact fun h => h s s rfl
  · intro h a s' e
    cases e
    exact h

@[simp] theorem wp_get {Q : σ → σ → Prop} {s : σ} : wp (get : StateT σ Option σ) Q s ↔ Q s s := by
  constructor
  · rintro ⟨a, s', e, h⟩
    cases e
    exact h
  · exact fun h => ⟨s, s, rfl, h⟩

@[simp] theorem wp_set {s' : σ} {Q : PUnit → σ → Prop} {s : σ} : wp (set s' : StateT σ Option PUnit) Q s ↔ Q ⟨⟩ s' := by
  constructor
  · rintro ⟨a, s'', e, h⟩
    cases e
    exact h
  · exact fun h => ⟨⟨⟩, s', rfl, h⟩

@[simp] theorem wlp_modify {f : σ → σ} {Q : PUnit → σ → Prop} {s : σ} :
    wlp (modify f : StateT σ Option PUnit) Q s ↔ Q ⟨⟩ (f s) := by
  constructor
  · exact fun h => h ⟨⟩ (f s) rfl
  · intro h a s' e
    cases e
    exact h

@[simp] theorem wp_modify {f : σ → σ} {Q : PUnit → σ → Prop} {s : σ} :
    wp (modify f : StateT σ Option PUnit) Q s ↔ Q ⟨⟩ (f s) := by
  constructor
  · rintro ⟨a, s', e, h⟩
    cases e
    exact h
  · exact fun h => ⟨⟨⟩, f s, rfl, h⟩

@[simp] theorem wlp_lift {x : Option α} {Q : α → σ → Prop} {s : σ} :
    wlp (StateT.lift x) Q s ↔ ∀ a, x = some a → Q a s := by
  constructor
  · intro h a hx
    exact h a s (by rw [hx]; rfl)
  · intro h a s' e
    cases x with
    | none => cases e
    | some a' =>
      cases e
      exact h a rfl

@[simp] theorem wp_lift {x : Option α} {Q : α → σ → Prop} {s : σ} :
    wp (StateT.lift x) Q s ↔ ∃ a, x = some a ∧ Q a s := by
  constructor
  · rintro ⟨a, s', e, h⟩
    cases x with
    | none => cases e
    | some a' =>
      cases e
      exact ⟨a, rfl, h⟩
  · rintro ⟨a, rfl, h⟩
    exact ⟨a, s, rfl, h⟩

/-! ## Loops

The rule for `mapM` carries an invariant `I` of the state, a preorder `G` the state moves along, and a fact `P` about each
element and its result that survives any move along `G`. -/

section Loop

variable {f : α → StateT σ Option β} {I : σ → Prop} {G : σ → σ → Prop} {P : α → β → σ → Prop}

theorem wlp_mapM (hrefl : ∀ s, G s s) (htrans : ∀ {s₁ s₂ s₃}, G s₁ s₂ → G s₂ s₃ → G s₁ s₃)
    (hstable : ∀ {a b s s'}, G s s' → P a b s → P a b s') :
    ∀ (l : List α), (∀ a ∈ l, ∀ s, I s → wlp (f a) (fun b s' => I s' ∧ G s s' ∧ P a b s') s) → ∀ s, I s →
      wlp (l.mapM f) (fun bs s' => I s' ∧ G s s' ∧ List.Forall₂ (fun a b => P a b s') l bs) s := by
  intro l
  induction l with
  | nil =>
    intro _ s hs
    rw [List.mapM_nil, wlp_pure]
    exact ⟨hs, hrefl s, List.Forall₂.nil⟩
  | cons a l ih =>
    intro hf s hs
    rw [List.mapM_cons, wlp_bind]
    refine wlp_mono (hf a List.mem_cons_self s hs) ?_
    rintro b s₁ ⟨hs₁, hg₁, hp⟩
    rw [wlp_bind]
    refine wlp_mono (ih (fun a' ha' => hf a' (List.mem_cons_of_mem _ ha')) s₁ hs₁) ?_
    rintro bs s₂ ⟨hs₂, hg₂, hps⟩
    rw [wlp_pure]
    exact ⟨hs₂, htrans hg₁ hg₂, List.Forall₂.cons (hstable hg₂ hp) hps⟩

/-- A part of a list, for an element of another it is related to. -/
theorem exists_of_forall₂ {α β : Type} {R : α → β → Prop} {as : List α} {bs : List β} (h : List.Forall₂ R as bs) {a : α}
    (ha : a ∈ as) : ∃ b ∈ bs, R a b := by
  induction h with
  | nil => cases ha
  | cons hr _ ih =>
    rcases List.mem_cons.1 ha with rfl | ha
    · exact ⟨_, List.mem_cons_self, hr⟩
    · obtain ⟨b, hb, hrel⟩ := ih ha
      exact ⟨b, List.mem_cons_of_mem _ hb, hrel⟩

/-- Two lists matched by way of a third. -/
theorem forall₂_comp {α β γ : Type} {R : α → β → Prop} {S : β → γ → Prop} {as : List α} {bs : List β} {cs : List γ}
    (h : List.Forall₂ R as bs) (h' : List.Forall₂ S bs cs) : List.Forall₂ (fun a c => ∃ b, R a b ∧ S b c) as cs := by
  induction h generalizing cs with
  | nil =>
    cases h'
    exact List.Forall₂.nil
  | @cons a b as bs hr _ ih =>
    cases h' with
    | cons hs hrest => exact List.Forall₂.cons ⟨b, hr, hs⟩ (ih hrest)

/-- Matched elements with one value. -/
theorem map_eq_of_forall₂ {α β γ : Type} {f : α → γ} {g : β → γ} {as : List α} {bs : List β}
    (h : List.Forall₂ (fun a b => f a = g b) as bs) : as.map f = bs.map g := by
  induction h with
  | nil => rfl
  | cons hr _ ih => rw [List.map_cons, List.map_cons, hr, ih]

/-- A loop whose results are functions of what it computes. -/
theorem mapM_map {γ : Type} (g : α → β → γ) (f : α → StateT σ Option β) (l : List α) :
    l.mapM (fun a => g a <$> f a) = List.zipWith g l <$> l.mapM f := by
  induction l with
  | nil => simp
  | cons a l ih => simp [List.mapM_cons, ih]

/-- A loop whose runs all have results has one result for each element. -/
theorem wp_mapM (l : List α) (hf : ∀ a ∈ l, ∀ s, I s → wp (f a) (fun _ s' => I s') s) {s : σ} (hs : I s) :
    wp (l.mapM f) (fun bs s' => bs.length = l.length ∧ I s') s := by
  induction l generalizing s with
  | nil =>
    rw [List.mapM_nil, wp_pure]
    exact ⟨rfl, hs⟩
  | cons a l ih =>
    rw [List.mapM_cons, wp_bind]
    refine wp_mono (hf a List.mem_cons_self s hs) ?_
    intro b s₁ hs₁
    rw [wp_bind]
    refine wp_mono (ih (fun a' ha' => hf a' (List.mem_cons_of_mem _ ha')) hs₁) ?_
    rintro bs s₂ ⟨hlen, hs₂⟩
    rw [wp_pure]
    exact ⟨congrArg Nat.succ hlen, hs₂⟩

/-- The rule for `mapM`, for runs that all have results. -/
theorem wp_mapM_forall₂ (hrefl : ∀ s, G s s) (htrans : ∀ {s₁ s₂ s₃}, G s₁ s₂ → G s₂ s₃ → G s₁ s₃)
    (hstable : ∀ {a b s s'}, G s s' → P a b s → P a b s') (l : List α)
    (hf : ∀ a ∈ l, ∀ s, I s → wp (f a) (fun b s' => I s' ∧ G s s' ∧ P a b s') s) {s : σ} (hs : I s) :
    wp (l.mapM f) (fun bs s' => I s' ∧ G s s' ∧ List.Forall₂ (fun a b => P a b s') l bs) s := by
  have hresults := wp_mapM l (fun a ha s hs => wp_mono (hf a ha s hs) fun _ _ h => h.1) hs
  have hfacts := wlp_mapM (I := I) (G := G) (P := P) hrefl htrans hstable l (fun a ha s hs => wlp_of_wp (hf a ha s hs)) s hs
  exact wp_mono (wp_and_wlp hresults hfacts) fun _ _ h => h.2

/-- The rule for `foldlM`: the invariant speaks of the elements that are done. -/
theorem wlp_foldlM {g : β → α → StateT σ Option β} {J : List α → β → σ → Prop} {l : List α}
    (hstep : ∀ done a rest b s, done ++ a :: rest = l → J done b s → wlp (g b a) (J (done ++ [a])) s)
    {b : β} {s : σ} (h : J [] b s) : wlp (l.foldlM g b) (J l) s := by
  have key : ∀ (rest done : List α) (b : β) (s : σ), done ++ rest = l → J done b s → wlp (rest.foldlM g b) (J l) s := by
    intro rest
    induction rest with
    | nil =>
      intro done b s hl hj
      rw [List.append_nil] at hl
      rw [List.foldlM_nil, wlp_pure, ← hl]
      exact hj
    | cons a rest ih =>
      intro done b s hl hj
      rw [List.foldlM_cons, wlp_bind]
      refine wlp_mono (hstep done a rest b s hl hj) ?_
      intro b' s' hj'
      exact ih (done ++ [a]) b' s' (by rw [← hl, List.append_assoc, List.singleton_append]) hj'
  exact key l [] b s rfl h

theorem wp_foldlM {g : β → α → StateT σ Option β} (l : List α) (hg : ∀ a ∈ l, ∀ b s, I s → wp (g b a) (fun _ s' => I s') s)
    {b : β} {s : σ} (hs : I s) : wp (l.foldlM g b) (fun _ s' => I s') s := by
  induction l generalizing b s with
  | nil =>
    rw [List.foldlM_nil, wp_pure]
    exact hs
  | cons a l ih =>
    rw [List.foldlM_cons, wp_bind]
    refine wp_mono (hg a List.mem_cons_self b s hs) ?_
    intro b' s' hs'
    exact ih (fun a' ha' => hg a' (List.mem_cons_of_mem _ ha')) hs'

variable {u : α → StateT σ Option PUnit}

theorem wlp_forM (l : List α) (hu : ∀ a ∈ l, ∀ s, I s → wlp (u a) (fun _ s' => I s') s) {s : σ} (hs : I s) :
    wlp (l.forM u) (fun _ s' => I s') s := by
  induction l generalizing s with
  | nil =>
    exact wlp_pure.2 hs
  | cons a l ih =>
    refine wlp_bind.2 (wlp_mono (hu a List.mem_cons_self s hs) ?_)
    intro _ s' hs'
    exact ih (fun a' ha' => hu a' (List.mem_cons_of_mem _ ha')) hs'

theorem wp_forM (l : List α) (hu : ∀ a ∈ l, ∀ s, I s → wp (u a) (fun _ s' => I s') s) {s : σ} (hs : I s) :
    wp (l.forM u) (fun _ s' => I s') s := by
  induction l generalizing s with
  | nil =>
    exact wp_pure.2 hs
  | cons a l ih =>
    refine wp_bind.2 (wp_mono (hu a List.mem_cons_self s hs) ?_)
    intro _ s' hs'
    exact ih (fun a' ha' => hu a' (List.mem_cons_of_mem _ ha')) hs'

end Loop

/-! ## More results -/

/-- A run that has a result has the same one in the other computation. -/
def Refines (m m' : StateT σ Option α) : Prop := ∀ s r, m s = some r → m' s = some r

theorem Refines.refl (m : StateT σ Option α) : Refines m m := fun _ _ h => h

theorem Refines.bind {m m' : StateT σ Option α} {f f' : α → StateT σ Option β} (hm : Refines m m')
    (hf : ∀ a, Refines (f a) (f' a)) : Refines (m >>= f) (m' >>= f') := by
  intro s r h
  rw [bind_apply, Option.bind_eq_some_iff] at h ⊢
  obtain ⟨⟨a, s₁⟩, h₁, h₂⟩ := h
  exact ⟨(a, s₁), hm _ _ h₁, hf a _ _ h₂⟩

theorem Refines.mapM {f f' : α → StateT σ Option β} (l : List α) (hf : ∀ a, Refines (f a) (f' a)) :
    Refines (l.mapM f) (l.mapM f') := by
  induction l with
  | nil => exact Refines.refl _
  | cons a l ih =>
    rw [List.mapM_cons, List.mapM_cons]
    exact (hf a).bind fun b => ih.bind fun bs => Refines.refl _

/-- A run with a result, taken apart. -/
theorem wp_true_iff {m : StateT σ Option α} {s : σ} : wp m (fun _ _ => True) s ↔ (m s).isSome := by
  rw [Option.isSome_iff_exists]
  constructor
  · rintro ⟨a, s', h, -⟩
    exact ⟨(a, s'), h⟩
  · rintro ⟨⟨a, s'⟩, h⟩
    exact ⟨a, s', h, trivial⟩

end StateOption
