import LoomImport.CellRuns

/-!
# A module with one cell

For every type of cell with the operands A and B and every shape, the module whose input ports are the operands of one cell of that
type and whose output port is its result. Its operands are translated to signals, so that they take any values.
-/

namespace LoomImport

open ImportIR StateOption

namespace Bench

/-- Consecutive nets. -/
def nets (start count : Nat) : List Bit := (List.range' start count).map .net

/-- The parameter for a signedness. -/
def signParam (signed : Bool) : Param := .int (if signed then 1 else 0)

def cell (type : String) (sh : Shape) : Cell where
  type := type
  src := "bench.v:3.14-3.19"
  parameters := ⟨[("A_SIGNED", signParam sh.aSigned), ("B_SIGNED", signParam sh.bSigned)], by simp⟩
  portDirections := ⟨[("A", "input"), ("B", "input"), ("Y", "output")], by decide⟩
  connections := ⟨[("A", nets 0 sh.aWidth), ("B", nets sh.aWidth sh.bWidth),
    ("Y", nets (sh.aWidth + sh.bWidth) sh.width)], by simp⟩

def setting (type : String) (sh : Shape) (policy : Option FourStatePolicy) : Setting where
  name := "bench"
  module := {
    src := "bench.v:1.1-4.10"
    ports := ⟨[("a", ⟨"input", nets 0 sh.aWidth⟩), ("b", ⟨"input", nets sh.aWidth sh.bWidth⟩),
      ("y", ⟨"output", nets (sh.aWidth + sh.bWidth) sh.width⟩)], by simp⟩
    netnames := Dict.empty
    cells := ⟨[("u", cell type sh)], List.nodup_singleton _⟩ }
  modules := ["bench"]
  policy := policy
  sha256 := fun text => text

theorem nets_ne_nil {start count : Nat} (h : 0 < count) : nets start count ≠ [] := by
  refine List.length_pos_iff.1 ?_
  simpa [nets] using h

/-- Vectors of consecutive nets that start elsewhere are others. -/
theorem nets_ne {start start' count count' : Nat} (h : 0 < count) (hne : start ≠ start') :
    nets start count ≠ nets start' count' := by
  obtain ⟨n, rfl⟩ : ∃ n, count = n + 1 := ⟨count - 1, by omega⟩
  cases count' with
  | zero => simp [nets, List.range'_succ]
  | succ m => simp [nets, List.range'_succ, hne]

theorem nets_not_const {start count : Nat} (h : 0 < count) : (nets start count).all Bit.isConst = false := by
  obtain ⟨n, rfl⟩ : ∃ n, count = n + 1 := ⟨count - 1, by omega⟩
  rfl

theorem flag_signed (type : String) (sh : Shape) :
    (cell type sh).flag "A_SIGNED" = sh.aSigned ∧ (cell type sh).flag "B_SIGNED" = sh.bSigned := by
  have h : ∀ signed, decide (decodeParameter (some (signParam signed)) 0 ≠ 0) = signed := by decide
  exact ⟨h sh.aSigned, h sh.bSigned⟩

theorem length_nets (start count : Nat) : (nets start count).length = count := by
  simp [nets]

theorem shape_eq (type : String) (sh : Shape) :
    (cell type sh).shape ((cell type sh).connection "Y").length = sh := by
  obtain ⟨ha, hb⟩ := flag_signed type sh
  have hA : (cell type sh).connection "A" = nets 0 sh.aWidth := rfl
  have hB : (cell type sh).connection "B" = nets sh.aWidth sh.bWidth := rfl
  have hY : (cell type sh).connection "Y" = nets (sh.aWidth + sh.bWidth) sh.width := rfl
  unfold Cell.shape
  rw [ha, hb, hA, hB, hY, length_nets, length_nets, length_nets]

section

variable {type : String} {sh : Shape} {policy : Option FourStatePolicy}

/-- The operands are the named vectors. -/
theorem inputs_eq (h : 0 < sh.aWidth) : (setting type sh policy).ctx.inputs.get? (nets 0 sh.aWidth) = some "a" ∧
    (setting type sh policy).ctx.inputs.get? (nets sh.aWidth sh.bWidth) = some "b" := by
  rw [(prepared (setting type sh policy)).inputs]
  have hinputs : (setting type sh policy).inputs =
      (Dict.empty.set (nets 0 sh.aWidth) "a").set (nets sh.aWidth sh.bWidth) "b" := rfl
  rw [hinputs]
  refine ⟨?_, Dict.get?_set_self _ _ _⟩
  rw [Dict.get?_set_ne _ (nets_ne h (Nat.ne_of_lt h)), Dict.get?_set_self]

/-- A vector of an input port is translated to its signal. -/
theorem expr_input {Γ : Ctx} {bits : List Bit} {name : String} (hget : Γ.inputs.get? bits = some name)
    (hconst : bits.all Bit.isConst = false) (fuel : Nat) (src : SourceLocation) (s : State) :
    expr Γ (fuel + 1) bits src s = some (.signal bits.length name src, s) := by
  have hne : bits ≠ [] := by
    rintro rfl
    cases hconst
  have hroute : Γ.route bits = .named := by
    unfold Ctx.route isAlias
    rw [if_neg hne, hconst, if_neg Bool.false_ne_true, hget]
    rfl
  have halias : Γ.aliasExpr bits src = some (.signal bits.length name src) := by
    unfold Ctx.aliasExpr vectorAlias
    rw [hget]
    rfl
  rw [expr, exprBody_eq, hroute, halias]
  rfl

end

end Bench

open Bench

/-- The run of the module with one cell. -/
def Bench.run (type : String) (htype : type ≠ "bench") (policy : Option FourStatePolicy) (sh : Shape) (ha : 0 < sh.aWidth)
    (hb : 0 < sh.bWidth) (hw : 0 < sh.width) : CellRun type sh :=
  let Γ := setting type sh policy
  let src := Γ.ctx.sourceOf (cell type sh).src
  let inside := Γ.start.enter ("u", "Y")
  have hsetting : Γ.ctx.toSetting = Γ := ctx_toSetting Γ
  { Γ := Γ
    cellName := "u"
    cell := cell type sh
    cell_eq := by rw [hsetting]; rfl
    type_eq := rfl
    primitive := by rw [hsetting]; exact fun hm => htype (List.mem_singleton.1 hm)
    output_ne := nets_ne_nil hw
    shape_eq := shape_eq type sh
    fuel := 1
    before := Γ.start
    visited := .start
    fresh := by rw [(prepared Γ).cache]; rfl
    idle := by rw [(prepared Γ).inProgress]; exact List.not_mem_nil
    left := .signal (nets 0 sh.aWidth).length "a" src
    afterLeft := inside
    left_eq := expr_input (inputs_eq ha).1 (nets_not_const ha) 0 src inside
    right := .signal (nets sh.aWidth sh.bWidth).length "b" src
    afterRight := inside
    right_eq := expr_input (inputs_eq ha).2 (nets_not_const hb) 0 src inside }

namespace Bench

variable {type : String} (htype : type ≠ "bench") (policy : Option FourStatePolicy) {sh : Shape} (ha : 0 < sh.aWidth)
  (hb : 0 < sh.bWidth) (hw : 0 < sh.width)

theorem run_unblocked {kind : BinaryKind} (h : supportedComb? type = some (.binary kind)) :
    (run type htype policy sh ha hb hw).Unblocked := by
  intro result after hreturns
  rw [(hreturns.unique (CellRun.returns_binary _ h)).2]
  rfl

/-- The state that gives the input ports their values. -/
def valuation (sh : Shape) (a : BitVec sh.aWidth) (b : BitVec sh.bWidth) : Hw.St where
  regs := fun name w => if name = "a" then a.setWidth w else b.setWidth w
  mems := fun _ _ _ => 0

/-- A signal of an input port has the value of the port. -/
theorem signal_denotes {σ : Hw.St} {name : String} {n w : Nat} (hn : n = w) (hw : 0 < w) (hname : name.isEmpty = false)
    {v : BitVec w} (hv : σ.regs name w = v) (src : SourceLocation) : Denotes σ (.signal n name src) v := by
  subst hn hv
  exact Denotes.signal hw hname src

theorem run_left (a : BitVec sh.aWidth) (b : BitVec sh.bWidth) :
    Denotes (valuation sh a b) (run type htype policy sh ha hb hw).left a :=
  signal_denotes (length_nets 0 sh.aWidth) ha (by decide) (BitVec.setWidth_eq a) _

theorem run_right (a : BitVec sh.aWidth) (b : BitVec sh.bWidth) :
    Denotes (valuation sh a b) (run type htype policy sh ha hb hw).right b :=
  signal_denotes (length_nets sh.aWidth sh.bWidth) hb (by decide) (BitVec.setWidth_eq b) _

/-- What the run of an exact shape returns, at the values of the input ports. -/
theorem run_exact {runs : CellRun type sh → Prop} {operands : BitVec sh.aWidth → BitVec sh.bWidth → Prop}
    {value : BitVec sh.aWidth → BitVec sh.bWidth → BitVec sh.width} (hexact : sh.Exact type runs operands value)
    (hruns : runs (run type htype policy sh ha hb hw)) : ∃ result after, (run type htype policy sh ha hb hw).Returns result after ∧
      ∀ a b, operands a b → Denotes (valuation sh a b) result (value a b) := by
  obtain ⟨result, after, hreturns, hvalue⟩ := hexact _ hruns
  exact ⟨result, after, hreturns, fun a b =>
    hvalue _ a b (run_left htype policy ha hb hw a b) (run_right htype policy ha hb hw a b)⟩

/-- A policy whose one rule fills every site with zeros. -/
def zeroFill : FourStatePolicy where
  rules := [{
    name := "zeros"
    module := "*"
    file := "*"
    lineStart := 0
    lineEnd := 9
    classification := .undrivenBehavior
    fill := .zero
    rationale := "out of range reads nothing"
    site := none
    name_ne := by decide
    rationale_ne := by decide
    lines_le := by decide }]
  rules_ne := by simp
  names_nodup := by simp

/-- The position of the cell. -/
theorem source_eq (fallback : String) : location "bench.v:3.14-3.19" fallback = ⟨"bench.v", 3, 14, 3, 19⟩ := by
  have hfirst : matchLocation [] (stripSpaces ("bench.v:3.14-3.19".toList.takeWhile (· ≠ '|'))) =
      some ("bench.v", 3, 14, 3, 19) := by decide +kernel
  unfold location
  rw [if_neg (by decide)]
  simp only [hfirst]
  rfl

/-- Under that policy, a part-select by an unsigned amount is accepted. -/
theorem run_accepted (hsigned : sh.bSigned = false) :
    (run "$shiftx" (by decide) (some zeroFill) sh ha hb hw).Accepted := by
  refine ⟨(flag_signed "$shiftx" sh).2.trans hsigned, zeroFill.rules.head (by decide), rfl, ?_⟩
  have hmatch : ∀ site, (setting "$shiftx" sh (some zeroFill)).policyMatches site ⟨"bench.v", 3, 14, 3, 19⟩ =
      [zeroFill.rules.head (by decide)] := fun _ => by
    simp [Setting.policyMatches, setting, FourStatePolicy.matching, FourStatePolicy.claims, zeroFill]
  have hsource : (setting "$shiftx" sh (some zeroFill)).ctx.sourceOf (cell "$shiftx" sh).src = ⟨"bench.v", 3, 14, 3, 19⟩ :=
    source_eq _
  have hpolicy := hmatch ((setting "$shiftx" sh (some zeroFill)).shiftxSite "u" ⟨"bench.v", 3, 14, 3, 19⟩)
  rw [← ctx_toSetting (setting "$shiftx" sh (some zeroFill)), ← hsource] at hpolicy
  exact hpolicy

end Bench

end LoomImport
