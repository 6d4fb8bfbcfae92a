import Mathlib.Data.List.Basic

/-!
# Tables in which entries refer to earlier ones

A table is read from its first entry to its last, each entry over the results of those before it. A result never changes once it is
there, and an entry that needs a result that is not there yet is never read.
-/

namespace Tables

variable {ε ν τ : Type}

/-- Read the entries of a table, the results so far first. -/
def build (step : List τ → ν → Except ε τ) : List τ → List ν → Except ε (List τ)
  | known, [] => .ok known
  | known, entry :: entries =>
    match step known entry with
    | .error e => .error e
    | .ok t => build step (known ++ [t]) entries

variable {step : List τ → ν → Except ε τ}

theorem build_append {known k : List τ} {entries entries' : List ν} (h : build step known entries = .ok k) :
    build step known (entries ++ entries') = build step k entries' := by
  induction entries generalizing known with
  | nil =>
    cases h
    rfl
  | cons entry entries ih =>
    rw [List.cons_append, build]
    rw [build] at h
    cases hs : step known entry with
    | error e => rw [hs] at h; cases h
    | ok t =>
      rw [hs] at h
      exact ih h

/-- One more entry. -/
theorem build_snoc {k : List τ} {entries : List ν} {entry : ν} {t : τ} (h : build step [] entries = .ok k)
    (hstep : step k entry = .ok t) : build step [] (entries ++ [entry]) = .ok (k ++ [t]) := by
  rw [build_append h, build, hstep]
  rfl

/-- What is there after some entries is there after all. -/
theorem build_prefix {known k : List τ} {entries : List ν} (h : build step known entries = .ok k) : known <+: k := by
  induction entries generalizing known with
  | nil =>
    cases h
    exact List.prefix_refl _
  | cons entry entries ih =>
    rw [build] at h
    cases hs : step known entry with
    | error e => rw [hs] at h; cases h
    | ok t =>
      rw [hs] at h
      exact (List.prefix_append known [t]).trans (ih h)

/-- A table has one result for each entry. -/
theorem build_length {known k : List τ} {entries : List ν} (h : build step known entries = .ok k) :
    k.length = known.length + entries.length := by
  induction entries generalizing known with
  | nil =>
    cases h
    simp
  | cons entry entries ih =>
    rw [build] at h
    cases hs : step known entry with
    | error e => rw [hs] at h; cases h
    | ok t =>
      rw [hs] at h
      rw [ih h, List.length_append, List.length_singleton, List.length_cons]
      omega

/-- An entry is read over the results of those before it. -/
theorem build_entry {k : List τ} {before after : List ν} {entry : ν} (h : build step [] (before ++ entry :: after) = .ok k) :
    ∃ known t, known.length = before.length ∧ known ++ [t] <+: k ∧ step known entry = .ok t := by
  have key : ∀ (before : List ν) (known₀ : List τ), build step known₀ (before ++ entry :: after) = .ok k →
      ∃ known t, known.length = known₀.length + before.length ∧ known ++ [t] <+: k ∧ step known entry = .ok t := by
    intro before
    induction before with
    | nil =>
      intro known₀ h
      rw [List.nil_append, build] at h
      cases hs : step known₀ entry with
      | error e => rw [hs] at h; cases h
      | ok t =>
        rw [hs] at h
        exact ⟨known₀, t, rfl, build_prefix h, hs⟩
    | cons first before ih =>
      intro known₀ h
      rw [List.cons_append, build] at h
      cases hs : step known₀ first with
      | error e => rw [hs] at h; cases h
      | ok t =>
        rw [hs] at h
        obtain ⟨known, t', hlen, hprefix, hstep⟩ := ih _ h
        refine ⟨known, t', ?_, hprefix, hstep⟩
        rw [hlen, List.length_append, List.length_singleton, List.length_cons]
        omega
  obtain ⟨known, t, hlen, hprefix, hstep⟩ := key before [] h
  exact ⟨known, t, by simpa using hlen, hprefix, hstep⟩

/-- An entry that no results of the entries before it are enough for makes the table unreadable. -/
theorem build_ne_ok {before after : List ν} {entry : ν}
    (hstep : ∀ known t, known.length = before.length → step known entry ≠ .ok t) (k : List τ) :
    build step [] (before ++ entry :: after) ≠ .ok k := by
  intro h
  obtain ⟨known, t, hlen, -, hok⟩ := build_entry h
  exact hstep known t hlen hok

end Tables
