import Mathlib.Data.List.Basic

/-!
# Reading a list from its start, by an index

Some computations each take a few items of one list, the next ones by an index they share. Each then computes over its own items what
it would compute if it were given them.
-/

namespace Cursor

variable {ε τ α β γ : Type}

/-- The next item. -/
def next (items : List τ) (missing : ε) : StateT Nat (Except ε) τ := fun index =>
  match items[index]? with
  | none => .error missing
  | some item => .ok (item, index + 1)

/-- Where the next items are some, a computation takes these and gives what another one gives. -/
def Takes (items : List τ) (f : StateT Nat (Except ε) β) (own : List τ) (g : Except ε β) : Prop :=
  ∀ index, own <+: items.drop index → f index = g.map fun b => (b, index + own.length)

theorem takes_pure (items : List τ) (b : β) : Takes items (pure b : StateT Nat (Except ε) β) [] (.ok b) := fun _ _ => rfl

theorem takes_lift (items : List τ) (g : Except ε β) : Takes items (StateT.lift g) [] g := by
  intro index _
  cases g <;> rfl

theorem takes_next (items : List τ) (missing : ε) (item : τ) : Takes items (next items missing) [item] (.ok item) := by
  intro index h
  have hget : items[index]? = some item := by
    obtain ⟨rest, hrest⟩ := h
    have hfirst : (items.drop index)[0]? = some item := by rw [← hrest]; rfl
    rwa [List.getElem?_drop, Nat.add_zero] at hfirst
  simp [next, hget, Except.map]

theorem Takes.bind {items : List τ} {f : StateT Nat (Except ε) β} {own : List τ} {g : Except ε β} (h : Takes items f own g)
    {f' : β → StateT Nat (Except ε) γ} {own' : List τ} {g' : β → Except ε γ} (h' : ∀ b, g = .ok b → Takes items (f' b) own' (g' b)) :
    Takes items (f >>= f') (own ++ own') (g >>= g') := by
  intro index hprefix
  have hfirst := h index ((List.prefix_append own own').trans hprefix)
  have hrest : own' <+: items.drop (index + own.length) := by
    obtain ⟨rest, hrest⟩ := hprefix
    refine ⟨rest, ?_⟩
    rw [← List.drop_drop, ← hrest, List.append_assoc, List.drop_left]
  show f index >>= (fun r => f' r.1 r.2) = _
  rw [hfirst]
  cases g with
  | error e => rfl
  | ok b =>
    show f' b (index + own.length) = _
    rw [h' b rfl _ hrest, List.length_append, Nat.add_assoc]
    rfl

/-- What follows takes no items. -/
theorem Takes.andThen {items : List τ} {f : StateT Nat (Except ε) β} {own : List τ} {g : Except ε β} (h : Takes items f own g)
    {f' : β → StateT Nat (Except ε) γ} {g' : β → Except ε γ} (h' : ∀ b, Takes items (f' b) [] (g' b)) :
    Takes items (f >>= f') own (g >>= g') := by
  have hbind := h.bind fun b _ => h' b
  rwa [List.append_nil] at hbind

theorem Takes.map {items : List τ} {f : StateT Nat (Except ε) β} {own : List τ} {g : Except ε β} (h : Takes items f own g)
    (k : β → γ) : Takes items (k <$> f) own (k <$> g) := h.andThen fun b => takes_pure items (k b)

/-- Computations over the elements of a list take their items one after the other. -/
theorem takes_mapM {items : List τ} {f : α → StateT Nat (Except ε) β} {own : α → List τ} {g : α → Except ε β} {xs : List α}
    (h : ∀ x ∈ xs, Takes items (f x) (own x) (g x)) : Takes items (xs.mapM f) (xs.flatMap own) (xs.mapM g) := by
  induction xs with
  | nil => exact takes_pure items []
  | cons x xs ih =>
    rw [List.mapM_cons, List.mapM_cons, List.flatMap_cons]
    refine (h x List.mem_cons_self).bind fun b _ => ?_
    have hrest := ih fun y hy => h y (List.mem_cons_of_mem x hy)
    exact hrest.map (b :: ·)

end Cursor
