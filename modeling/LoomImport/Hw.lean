import Mathlib.Data.BitVec

/-!
# Loom hardware expressions and actions

The width-indexed expressions and the write actions an imported module is lowered to, with their evaluation. Reads observe the
state before the cycle; writes accumulate, and a later write to the same coordinate wins.
-/

namespace LoomImport

namespace Hw

/-- Registers, inputs and child nets, by name and width. -/
def RegEnv := String → (w : Nat) → BitVec w

/-- Memory contents, by name, address and width. -/
def MemEnv := String → Nat → (w : Nat) → BitVec w

/-- The state an expression is evaluated against. -/
structure St where
  regs : RegEnv
  mems : MemEnv

/-- Write one register coordinate. -/
def RegEnv.set (ρ : RegEnv) (name : String) {w : Nat} (v : BitVec w) : RegEnv :=
  fun n w' => if n = name then if h : w = w' then h ▸ v else ρ n w' else ρ n w'

/-- Write one memory word: the other addresses, memories and widths keep theirs. -/
def MemEnv.set (μ : MemEnv) (name : String) (a : Nat) {w : Nat} (v : BitVec w) : MemEnv :=
  fun n a' w' => if n = name ∧ a' = a then if h : w = w' then h ▸ v else μ n a' w' else μ n a' w'

theorem RegEnv.set_self (ρ : RegEnv) (name : String) {w : Nat} (v : BitVec w) : ρ.set name v name w = v := by
  simp [RegEnv.set]

theorem RegEnv.set_ne (ρ : RegEnv) {name n : String} {w : Nat} (v : BitVec w) (w' : Nat) (h : n ≠ name) :
    ρ.set name v n w' = ρ n w' := if_neg h

theorem MemEnv.set_apply (μ : MemEnv) (name : String) (a a' : Nat) {w : Nat} (v : BitVec w) :
    μ.set name a v name a' w = if a' = a then v else μ name a' w := by
  by_cases h : a' = a <;> simp [MemEnv.set, h]

/-- Writing a word leaves every other memory alone, and every other width of the same memory. -/
theorem MemEnv.set_other (μ : MemEnv) {name n : String} (a a' : Nat) {w w' : Nat} (v : BitVec w)
    (h : n ≠ name ∨ w' ≠ w) : μ.set name a v n a' w' = μ n a' w' := by
  rcases h with h | h
  · simp [MemEnv.set, h]
  · have hw : ¬w = w' := fun e => h e.symm
    simp [MemEnv.set, hw]

/-- Width-indexed combinational expressions over the state before the cycle. -/
inductive Expr : Nat → Type where
  | lit {w : Nat} (v : BitVec w) : Expr w
  | reg (w : Nat) (name : String) : Expr w
  | memRead (dw : Nat) (mem : String) {aw : Nat} (addr : Expr aw) : Expr dw
  | and {w : Nat} (a b : Expr w) : Expr w
  | or {w : Nat} (a b : Expr w) : Expr w
  | xor {w : Nat} (a b : Expr w) : Expr w
  | not {w : Nat} (a : Expr w) : Expr w
  | add {w : Nat} (a b : Expr w) : Expr w
  | sub {w : Nat} (a b : Expr w) : Expr w
  | mul {w : Nat} (a b : Expr w) : Expr w
  /-- Total unsigned division: a quotient by zero is zero. -/
  | udiv {w : Nat} (a b : Expr w) : Expr w
  /-- Total unsigned remainder: a remainder by zero is the dividend. -/
  | urem {w : Nat} (a b : Expr w) : Expr w
  | shl {w : Nat} (a b : Expr w) : Expr w
  | shr {w : Nat} (a b : Expr w) : Expr w
  | eq {w : Nat} (a b : Expr w) : Expr 1
  | ult {w : Nat} (a b : Expr w) : Expr 1
  | slt {w : Nat} (a b : Expr w) : Expr 1
  | mux {w : Nat} (c : Expr 1) (t f : Expr w) : Expr w
  | slice {w : Nat} (a : Expr w) (lo width : Nat) : Expr width
  | zext {w : Nat} (a : Expr w) (w' : Nat) : Expr w'
  | sext {w : Nat} (a : Expr w) (w' : Nat) : Expr w'

/-- Concatenation lowers to a shift and an or of the two zero extensions. -/
def Expr.concat {hi lo : Nat} (msbs : Expr hi) (lsbs : Expr lo) : Expr (hi + lo) :=
  match lo with
  | 0 => msbs
  | n + 1 =>
    .or (.shl (.zext msbs (hi + (n + 1))) (.lit (BitVec.ofNat (hi + (n + 1)) (n + 1)))) (.zext lsbs (hi + (n + 1)))

/-- The value of an expression in a state. -/
def Expr.eval (σ : St) : {w : Nat} → Expr w → BitVec w
  | _, .lit v => v
  | w, .reg _ n => σ.regs n w
  | dw, .memRead _ m addr => σ.mems m (addr.eval σ).toNat dw
  | _, .and a b => a.eval σ &&& b.eval σ
  | _, .or a b => a.eval σ ||| b.eval σ
  | _, .xor a b => a.eval σ ^^^ b.eval σ
  | _, .not a => ~~~(a.eval σ)
  | _, .add a b => a.eval σ + b.eval σ
  | _, .sub a b => a.eval σ - b.eval σ
  | _, .mul a b => a.eval σ * b.eval σ
  | _, .udiv a b => a.eval σ / b.eval σ
  | _, .urem a b => a.eval σ % b.eval σ
  | _, .shl a b => a.eval σ <<< (b.eval σ).toNat
  | _, .shr a b => a.eval σ >>> (b.eval σ).toNat
  | _, .eq a b => if a.eval σ = b.eval σ then 1#1 else 0#1
  | _, .ult a b => if (a.eval σ).ult (b.eval σ) then 1#1 else 0#1
  | _, .slt a b => if (a.eval σ).slt (b.eval σ) then 1#1 else 0#1
  | _, .mux c t f => if c.eval σ = 1#1 then t.eval σ else f.eval σ
  | _, .slice a lo width => (a.eval σ).extractLsb' lo width
  | _, .zext a w' => (a.eval σ).setWidth w'
  | _, .sext a w' => (a.eval σ).signExtend w'

/-- The lowering of a concatenation evaluates to the append of the two values. -/
theorem Expr.concat_eval (σ : St) {hi lo : Nat} (msbs : Expr hi) (lsbs : Expr lo) :
    (Expr.concat msbs lsbs).eval σ = msbs.eval σ ++ lsbs.eval σ := by
  cases lo with
  | zero =>
    apply BitVec.eq_of_getLsbD_eq
    intro i _
    simp [Expr.concat]
  | succ n =>
    have hn : (BitVec.ofNat (hi + (n + 1)) (n + 1)).toNat = n + 1 := by
      rw [BitVec.toNat_ofNat, Nat.mod_eq_of_lt]
      exact lt_of_lt_of_le Nat.lt_two_pow_self (Nat.pow_le_pow_right (by omega) (by omega))
    apply BitVec.eq_of_getLsbD_eq
    intro i hlt
    simp only [Expr.concat, Expr.eval, BitVec.getLsbD_or, BitVec.getLsbD_shiftLeft, BitVec.getLsbD_setWidth,
      BitVec.getLsbD_append, hn]
    by_cases hlow : i < n + 1
    · simp [hlow, hlt]
    · have hhigh : i - (n + 1) < hi + (n + 1) := by omega
      have hzero : (lsbs.eval σ).getLsbD i = false := BitVec.getLsbD_of_ge _ i (by omega)
      simp [hlow, hlt, hhigh, hzero]

/-- A register declaration: its power-up value is `init`. -/
structure RegDecl where
  name : String
  width : Nat
  init : BitVec width

/-- Write actions. An action reads the state before the cycle and writes on the accumulated one. -/
inductive Act where
  | skip
  | seq (a b : Act)
  | ite (c : Expr 1) (t e : Act)
  | write (w : Nat) (reg : String) (v : Expr w)
  | memWrite (aw dw : Nat) (mem : String) (port : Nat) (addr : Expr aw) (data : Expr dw)

/-- Run an action: expressions read `σ`, writes go to the accumulator. -/
def Act.run (σ : St) : Act → St → St
  | .skip, acc => acc
  | .seq a b, acc => b.run σ (a.run σ acc)
  | .ite c t e, acc => if c.eval σ = 1#1 then t.run σ acc else e.run σ acc
  | .write _ r v, acc => { acc with regs := acc.regs.set r (v.eval σ) }
  | .memWrite _ _ m _ addr data, acc => { acc with mems := acc.mems.set m (addr.eval σ).toNat (data.eval σ) }

/-- The actions of a list, in order. -/
def sequence (actions : List Act) : Act := actions.foldl .seq .skip

/-- Running a sequence runs its actions in order. -/
theorem run_sequence (σ : St) (actions : List Act) (acc : St) :
    (sequence actions).run σ acc = actions.foldl (fun s a => a.run σ s) acc := by
  have key : ∀ (as : List Act) (a₀ : Act) (s : St),
      (as.foldl Act.seq a₀).run σ s = as.foldl (fun s a => a.run σ s) (a₀.run σ s) := by
    intro as
    induction as with
    | nil => intro a₀ s; rfl
    | cons a as ih => intro a₀ s; rw [List.foldl_cons, ih]; rfl
  exact key actions .skip acc

end Hw

end LoomImport
