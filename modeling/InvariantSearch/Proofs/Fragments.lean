import InvariantSearch.Logic
import InvariantSearch.Proofs.Candidates
import InvariantSearch.Proofs.Definitions

/-!
# What a logic admits

The terms that a logic admits are described by rules (`Logic.Admitted`), and `Logic.admits` accepts
just these (`admits_eq_ok_iff`). A logic looks at operators alone, and at the literals in products.
So a term stays admitted if admitted terms are put for its variables (`Admitted.subst`), for its
calls (`Admitted.mapCalls`, `Admitted.inline`), or in its holes (`Admitted.of_matches`).

If all productions of a grammar are admitted, then so are the terms that are derived
(`Grammar.Admitted.derives`). The standard grammar of a logic has admitted productions
(`Grammar.admitted_standard`), and so has every grammar that is built step by step
(`GrammarBuilder.Admitted.finish`).
-/

namespace InvariantSearch

/-! ## Terms -/

/-- One of two factors is a literal, unless the logic has all products. -/
def Logic.AllowsProduct (l : Logic) (s t : Term) : Prop :=
  l.isNonlinear = true ∨ s.isConstant = true ∨ t.isConstant = true

/-- Every operator of the term is in the logic. -/
inductive Logic.Admitted (l : Logic) : Term → Prop
  | bool (b : Bool) : Admitted l (.bool b)
  | int (ints : l.hasInts = true) (i : Int64) : Admitted l (.int i)
  | id (x : String) : Admitted l (.id x)
  | app {f : String} {args : List Term} (h : ∀ t ∈ args, Admitted l t) : Admitted l (.app f args)
  | not {t : Term} (h : Admitted l t) : Admitted l (.unary .not t)
  | neg {t : Term} (ints : l.hasInts = true) (h : Admitted l t) : Admitted l (.unary .neg t)
  | binary {op : BinaryOp} {s t : Term} (hs : Admitted l s) (ht : Admitted l t) :
      Admitted l (.binary op s t)
  | nary {op : NaryOp} {ts : List Term} (h : ∀ t ∈ ts, Admitted l t) : Admitted l (.nary op ts)
  | arith {op : ArithOp} {s t : Term} (ints : l.hasInts = true)
      (product : op = .mul → l.AllowsProduct s t) (hs : Admitted l s) (ht : Admitted l t) :
      Admitted l (.arith op s t)
  | compare {rel : Comparison} {s t : Term} (ints : l.hasInts = true) (hs : Admitted l s)
      (ht : Admitted l t) : Admitted l (.compare rel s t)
  | ite {c t e : Term} (hc : Admitted l c) (ht : Admitted l t) (he : Admitted l e) :
      Admitted l (.ite c t e)

namespace Logic

variable {l : Logic}

theorem refuses?_arith_eq_none_iff {op : ArithOp} {s t : Term} :
    l.refuses? (.arith op s t) = none ↔
      l.hasInts = true ∧ (op = .mul → l.AllowsProduct s t) := by
  unfold AllowsProduct
  cases op with
  | add | sub => simp [refuses?]
  | mul =>
    simp only [refuses?, forall_const]
    grind

theorem bind_unit_eq_ok_iff {ε : Type} {x y : Except ε Unit} :
    (do x; y) = .ok () ↔ x = .ok () ∧ y = .ok () := by
  cases x with
  | error e => simp [bind, Except.bind]
  | ok u => simp [bind, Except.bind]

mutual

theorem admitted_of_admits : (t : Term) → l.admits t = .ok () → l.Admitted t
  | .bool b, _ => .bool b
  | .int i, h => by
    cases hints : l.hasInts with
    | true => exact .int hints i
    | false => simp [admits, refuses?, hints] at h
  | .id x, _ => .id x
  | .app f args, h => .app (admitted_of_admitsAll args h)
  | .unary .not t, h => .not (admitted_of_admits t h)
  | .unary .neg t, h => by
    cases hints : l.hasInts with
    | true => exact .neg hints (admitted_of_admits t (by simpa [admits, refuses?, hints] using h))
    | false => simp [admits, refuses?, hints] at h
  | .binary op s t, h => by
    obtain ⟨hs, ht⟩ := bind_unit_eq_ok_iff.1 h
    exact .binary (admitted_of_admits s hs) (admitted_of_admits t ht)
  | .nary op ts, h => .nary (admitted_of_admitsAll ts h)
  | .arith op s t, h => by
    cases hrefuses : l.refuses? (.arith op s t) with
    | some op => simp [admits, hrefuses] at h
    | none =>
      rw [admits, hrefuses] at h
      obtain ⟨hs, ht⟩ := bind_unit_eq_ok_iff.1 h
      obtain ⟨ints, product⟩ := refuses?_arith_eq_none_iff.1 hrefuses
      exact .arith ints product (admitted_of_admits s hs) (admitted_of_admits t ht)
  | .compare rel s t, h => by
    cases hints : l.hasInts with
    | true =>
      obtain ⟨hs, ht⟩ := bind_unit_eq_ok_iff.1 (by simpa [admits, refuses?, hints] using h)
      exact .compare hints (admitted_of_admits s hs) (admitted_of_admits t ht)
    | false => simp [admits, refuses?, hints] at h
  | .ite c t e, h => by
    obtain ⟨hc, h⟩ := bind_unit_eq_ok_iff.1 h
    obtain ⟨ht, he⟩ := bind_unit_eq_ok_iff.1 h
    exact .ite (admitted_of_admits c hc) (admitted_of_admits t ht) (admitted_of_admits e he)

theorem admitted_of_admitsAll : (ts : List Term) → l.admitsAll ts = .ok () →
    ∀ t ∈ ts, l.Admitted t
  | [], _ => by simp
  | t :: ts, h => by
    obtain ⟨ht, hts⟩ := bind_unit_eq_ok_iff.1 h
    exact List.forall_mem_cons.2 ⟨admitted_of_admits t ht, admitted_of_admitsAll ts hts⟩

end

theorem admitsAll_eq_ok {ts : List Term} (h : ∀ t ∈ ts, l.admits t = .ok ()) :
    l.admitsAll ts = .ok () := by
  induction ts with
  | nil => rfl
  | cons t ts ih =>
    rw [List.forall_mem_cons] at h
    exact bind_unit_eq_ok_iff.2 ⟨h.1, ih h.2⟩

theorem Admitted.admits_eq {t : Term} (h : l.Admitted t) : l.admits t = .ok () := by
  induction h with
  | bool | id => rfl
  | int ints i => simp [admits, refuses?, ints]
  | app _ ih | nary _ ih => exact admitsAll_eq_ok ih
  | not _ ih => exact ih
  | neg ints _ ih => simpa [admits, refuses?, ints] using ih
  | binary _ _ ihs iht => exact bind_unit_eq_ok_iff.2 ⟨ihs, iht⟩
  | arith ints product _ _ ihs iht =>
    rw [admits, refuses?_arith_eq_none_iff.2 ⟨ints, product⟩]
    exact bind_unit_eq_ok_iff.2 ⟨ihs, iht⟩
  | compare ints _ _ ihs iht =>
    have hboth := bind_unit_eq_ok_iff.2 ⟨ihs, iht⟩
    simpa [admits, refuses?, ints] using hboth
  | ite _ _ _ ihc iht ihe => exact bind_unit_eq_ok_iff.2 ⟨ihc, bind_unit_eq_ok_iff.2 ⟨iht, ihe⟩⟩

/-- The check accepts the terms of the logic, and no others. -/
theorem admits_eq_ok_iff {t : Term} : l.admits t = .ok () ↔ l.Admitted t :=
  ⟨admitted_of_admits t, Admitted.admits_eq⟩

/-! ## Substitution and calls -/

/-- What leaves literals as they are keeps products in the logic. -/
theorem AllowsProduct.imp {s t s' t' : Term} (h : l.AllowsProduct s t)
    (hs : s.isConstant = true → s'.isConstant = true)
    (ht : t.isConstant = true → t'.isConstant = true) : l.AllowsProduct s' t' :=
  h.imp_right fun h => h.imp hs ht

end Logic

namespace Term

theorem isConstant_subst (σ : Substitution) : (t : Term) → t.isConstant = true →
    (t.subst σ).isConstant = true
  | .int _, _ => rfl
  | .unary .neg t, h => isConstant_subst σ t h

theorem isConstant_mapCalls (call : String → List Term → Term) : (t : Term) →
    t.isConstant = true → (t.mapCalls call).isConstant = true
  | .int _, _ => rfl
  | .unary .neg t, h => isConstant_mapCalls call t h

theorem Matches.isConstant {index : String → Option Nat} : {p t : Term} →
    {parts : List (Nat × Term)} → Matches index p t parts → p.isConstant = true →
    t.isConstant = true
  | _, _, _, .int _, _ => rfl
  | _, _, _, .unary .neg hm, h => hm.isConstant h

theorem mem_operands {op : NaryOp} {t u : Term} (h : u ∈ t.operands op) :
    u = t ∨ ∃ ts, t = .nary op ts ∧ u ∈ ts := by
  cases t with
  | nary op' ts =>
    rw [operands] at h
    split at h
    next heq => exact .inr ⟨ts, by rw [heq], h⟩
    next => exact .inl (List.mem_singleton.1 h)
  | _ => exact .inl (List.mem_singleton.1 h)

end Term

namespace Logic.Admitted

variable {l : Logic} {t : Term}

/-- Putting admitted terms for variables keeps a term admitted. -/
theorem subst {σ : Substitution} (h : l.Admitted t) (hσ : ∀ x u, σ x = some u → l.Admitted u) :
    l.Admitted (t.subst σ) := by
  induction h with
  | bool b => exact .bool b
  | int ints i => exact .int ints i
  | id x =>
    rw [Term.subst]
    cases hx : σ x with
    | none => exact .id x
    | some u => exact hσ x u hx
  | app _ ih =>
    rw [Term.subst, Term.substAll_eq_map]
    exact .app (List.forall_mem_map.2 ih)
  | not _ ih => exact .not ih
  | neg ints _ ih => exact .neg ints ih
  | binary _ _ ihs iht => exact .binary ihs iht
  | nary _ ih =>
    rw [Term.subst, Term.substAll_eq_map]
    exact .nary (List.forall_mem_map.2 ih)
  | arith ints product _ _ ihs iht =>
    -- A literal has no variables, so the product keeps the factor that is one.
    exact .arith ints (fun heq => (product heq).imp (Term.isConstant_subst σ _)
      (Term.isConstant_subst σ _)) ihs iht
  | compare ints _ _ ihs iht => exact .compare ints ihs iht
  | ite _ _ _ ihc iht ihe => exact .ite ihc iht ihe

/-- Putting admitted terms for calls with admitted arguments keeps a term admitted. -/
theorem mapCalls {call : String → List Term → Term} (h : l.Admitted t)
    (hcall : ∀ f args, (∀ u ∈ args, l.Admitted u) → l.Admitted (call f args)) :
    l.Admitted (t.mapCalls call) := by
  induction h with
  | bool b => exact .bool b
  | int ints i => exact .int ints i
  | id x => exact .id x
  | app _ ih =>
    rw [Term.mapCalls, Term.mapCallsAll_eq_map]
    exact hcall _ _ (List.forall_mem_map.2 ih)
  | not _ ih => exact .not ih
  | neg ints _ ih => exact .neg ints ih
  | binary _ _ ihs iht => exact .binary ihs iht
  | nary _ ih =>
    rw [Term.mapCalls, Term.mapCallsAll_eq_map]
    exact .nary (List.forall_mem_map.2 ih)
  | arith ints product _ _ ihs iht =>
    exact .arith ints (fun heq => (product heq).imp (Term.isConstant_mapCalls call _)
      (Term.isConstant_mapCalls call _)) ihs iht
  | compare ints _ _ ihs iht => exact .compare ints ihs iht
  | ite _ _ _ ihc iht ihe => exact .ite ihc iht ihe

/-- The body of a definition at admitted arguments is admitted if the body is. -/
theorem unfold {d : FunDef} (h : l.Admitted d.body) {args : List Term}
    (hargs : ∀ u ∈ args, l.Admitted u) : l.Admitted (d.unfold args) := by
  refine h.subst fun x u hx => hargs u ?_
  rw [FunDef.instantiation, Substitution.ofList_eq] at hx
  exact (List.of_mem_zip (mem_of_lookupLast hx)).2

theorem inlineTo {defs : List FunDef} (hdefs : ∀ d ∈ defs, l.Admitted d.body) (depth : Nat)
    (h : l.Admitted t) : l.Admitted (t.inlineTo defs depth) := by
  induction depth generalizing t with
  | zero => exact h
  | succ depth ih =>
    refine h.mapCalls fun f args hargs => ?_
    split
    next d hd =>
      have hmem : d ∈ defs := List.mem_reverse.1 (List.mem_of_find?_eq_some hd)
      exact ih ((hdefs d hmem).unfold hargs)
    next => exact .app hargs

/-- Replacing the calls of admitted definitions keeps a term admitted. -/
theorem inline {defs : List FunDef} (hdefs : ∀ d ∈ defs, l.Admitted d.body) (h : l.Admitted t) :
    l.Admitted (t.inline defs) :=
  h.inlineTo hdefs defs.length

theorem prime (h : l.Admitted t) (vars : List Binder) : l.Admitted (t.prime vars) := by
  refine h.subst fun x u hx => ?_
  rw [Substitution.ofList_eq] at hx
  obtain ⟨b, -, heq⟩ := List.mem_map.1 (mem_of_lookupLast hx)
  obtain ⟨-, rfl⟩ := Prod.mk.inj heq
  exact .id _

theorem conj {s : Term} (hs : l.Admitted s) (ht : l.Admitted t) :
    l.Admitted (Term.conj [s, t]) := by
  refine .nary fun u hu => ?_
  obtain ⟨v, hv, hu⟩ := List.mem_flatMap.1 hu
  have hadmitted : l.Admitted v := by
    rcases List.mem_pair.1 hv with rfl | rfl
    · exact hs
    · exact ht
  rcases Term.mem_operands hu with rfl | ⟨ts, rfl, hts⟩
  · exact hadmitted
  · cases hadmitted with
    | nary h => exact h u hts

mutual

/-- A template with admitted terms in its holes is admitted if the template is. A hole is no
literal, so a product in the template has its literal factor already. -/
theorem of_matches {index : String → Option Nat} : {p t : Term} → {parts : List (Nat × Term)} →
    p.Matches index t parts → l.Admitted p → (∀ part ∈ parts, l.Admitted part.2) → l.Admitted t
  | _, _, _, .hole _, _, hparts => hparts _ (List.mem_singleton_self _)
  | _, _, _, .id _, h, _ => h
  | _, _, _, .bool _, h, _ => h
  | _, _, _, .int _, h, _ => h
  | _, _, _, .app _ hm, .app h, hparts => .app (of_matchesAll hm h hparts)
  | _, _, _, .unary _ hm, .not h, hparts => .not (of_matches hm h hparts)
  | _, _, _, .unary _ hm, .neg ints h, hparts => .neg ints (of_matches hm h hparts)
  | _, _, _, .binary _ hms hmt, .binary hs ht, hparts =>
    .binary (of_matches hms hs fun part h => hparts part (List.mem_append_left _ h))
      (of_matches hmt ht fun part h => hparts part (List.mem_append_right _ h))
  | _, _, _, .nary _ hm, .nary h, hparts => .nary (of_matchesAll hm h hparts)
  | _, _, _, .arith _ hms hmt, .arith ints product hs ht, hparts =>
    .arith ints (fun heq => (product heq).imp hms.isConstant hmt.isConstant)
      (of_matches hms hs fun part h => hparts part (List.mem_append_left _ h))
      (of_matches hmt ht fun part h => hparts part (List.mem_append_right _ h))
  | _, _, _, .compare _ hms hmt, .compare ints hs ht, hparts =>
    .compare ints (of_matches hms hs fun part h => hparts part (List.mem_append_left _ h))
      (of_matches hmt ht fun part h => hparts part (List.mem_append_right _ h))
  | _, _, _, .ite hmc hmt hme, .ite hc ht he, hparts =>
    .ite (of_matches hmc hc fun part h => hparts part (by simp [h]))
      (of_matches hmt ht fun part h => hparts part (by simp [h]))
      (of_matches hme he fun part h => hparts part (by simp [h]))

theorem of_matchesAll {index : String → Option Nat} : {ps ts : List Term} →
    {parts : List (Nat × Term)} → Term.MatchesAll index ps ts parts → (∀ p ∈ ps, l.Admitted p) →
    (∀ part ∈ parts, l.Admitted part.2) → ∀ t ∈ ts, l.Admitted t
  | _, _, _, .nil, _, _ => by simp
  | _, _, _, .cons hm hms, h, hparts => by
    rw [List.forall_mem_cons] at h ⊢
    exact ⟨of_matches hm h.1 fun part hp => hparts part (List.mem_append_left _ hp),
      of_matchesAll hms h.2 fun part hp => hparts part (List.mem_append_right _ hp)⟩

end

end Logic.Admitted

/-! ## Grammars -/

namespace Grammar

variable {g : Grammar} {l : Logic}

/-- Every production is in the logic. -/
def Admitted (g : Grammar) (l : Logic) : Prop := ∀ ts ∈ g.productions, ∀ t ∈ ts, l.Admitted t

/-- A term that is derived is in the logic. -/
theorem Admitted.derives (h : g.Admitted l) {nt size : Nat} {t : Term}
    (hd : g.Derives nt size t) : l.Admitted t := by
  refine Derives.keeps (P := fun _ t => l.Admitted t) (fun nt r hr parts t hm hparts => ?_) hd
  obtain ⟨ts, hts, htemplate⟩ := exists_production_of_mem hr
  exact (h ts (List.mem_of_getElem? hts) _ htemplate).of_matches hm hparts

theorem admitted_of_mem_parameters {params : List Binder} {ty : Ty} {t : Term}
    (h : t ∈ (params.filter (·.ty = ty)).map fun p => Term.id p.name) : l.Admitted t := by
  obtain ⟨p, -, rfl⟩ := List.mem_map.1 h
  exact .id p.name

theorem admitted_of_mem_formulas {params : List Binder} {b : String} {t : Term}
    (h : t ∈ [.bool true, .bool false] ++
      ((params.filter (·.ty = .bool)).map fun p => Term.id p.name) ++
      [(Term.id b).not, .nary .and [.id b, .id b], .nary .or [.id b, .id b]]) :
    l.Admitted t := by
  have hid : l.Admitted (.id b) := .id b
  have hpair : ∀ t ∈ [Term.id b, .id b], l.Admitted t := by simpa using hid
  rcases List.mem_append.1 h with h | h
  · rcases List.mem_append.1 h with h | h
    · rcases List.mem_pair.1 h with rfl | rfl
      · exact .bool true
      · exact .bool false
    · exact admitted_of_mem_parameters h
  · simp only [List.mem_cons, List.not_mem_nil, or_false] at h
    rcases h with rfl | rfl | rfl
    · exact .not hid
    · exact .nary hpair
    · exact .nary hpair

theorem admitted_of_mem_comparisons (ints : l.hasInts = true) {i : String} {t : Term}
    (h : t ∈ [(Term.id i).equals (.id i), .compare .le (.id i) (.id i),
      .compare .lt (.id i) (.id i), .compare .ge (.id i) (.id i)]) : l.Admitted t := by
  have hid : l.Admitted (.id i) := .id i
  simp only [List.mem_cons, List.not_mem_nil, or_false] at h
  rcases h with rfl | rfl | rfl | rfl
  · exact .binary hid hid
  · exact .compare ints hid hid
  · exact .compare ints hid hid
  · exact .compare ints hid hid

/-- Products of any two integers are only there where the logic has them. -/
theorem admitted_of_mem_numbers (ints : l.hasInts = true) {params : List Binder} {i : String}
    {literals : List Int64} {t : Term}
    (h : t ∈ ((params.filter (·.ty = .int)).map fun p => Term.id p.name) ++
      literals.map Term.int ++ [.arith .add (.id i) (.id i), .arith .sub (.id i) (.id i)] ++
      if l.isNonlinear = true then [.arith .mul (.id i) (.id i)] else []) : l.Admitted t := by
  have hid : l.Admitted (.id i) := .id i
  simp only [List.mem_append] at h
  rcases h with ((h | h) | h) | h
  · exact admitted_of_mem_parameters h
  · obtain ⟨c, -, rfl⟩ := List.mem_map.1 h
    exact .int ints c
  · rcases List.mem_pair.1 h with rfl | rfl
    · exact .arith ints nofun hid hid
    · exact .arith ints nofun hid hid
  · split at h
    next hnonlinear =>
      obtain rfl := List.mem_singleton.1 h
      exact .arith ints (fun _ => .inl hnonlinear) hid hid
    next => simp at h

/-- The standard grammar of a logic is in the logic. -/
theorem admitted_standard (params : List Binder) (logic : Logic) (constants : List Int64) :
    (standard params logic constants).Admitted logic := by
  intro ts hts t ht
  unfold standard at hts
  dsimp only at hts
  split at hts
  next ints =>
    rcases List.mem_pair.1 hts with rfl | rfl
    · rcases List.mem_append.1 ht with ht | ht
      · exact admitted_of_mem_formulas ht
      · exact admitted_of_mem_comparisons ints ht
    · exact admitted_of_mem_numbers ints ht
  next =>
    obtain rfl := List.mem_singleton.1 hts
    exact admitted_of_mem_formulas ht

end Grammar

/-! ## Grammars that are built -/

/-- What a nonterminal of the sort may produce is in the logic. -/
def RuleSpec.Admitted (l : Logic) (ty : Ty) : RuleSpec → Prop
  | .term t => l.Admitted t
  | .anyConstant => ty = .int → l.hasInts = true
  | .anyVariable => True

namespace GrammarBuilder

variable {l : Logic} {b b' : GrammarBuilder} {nt : String}

/-- What the steps of building a grammar keep: all that nonterminals may produce is in the logic. -/
structure Admitted (l : Logic) (b : GrammarBuilder) : Prop where
  logic_eq : b.logic = l
  specs : ∀ e ∈ b.entries, ∀ spec ∈ e.2, spec.Admitted l e.1.ty

theorem admitted_new (params : List Binder) (logic : Logic) : (new params logic).Admitted logic :=
  ⟨rfl, by simp [new]⟩

theorem Admitted.push (h : b.Admitted l) {i : Nat} {e : Nonterminal × List RuleSpec}
    (he : b.entries[i]? = some e) {spec : RuleSpec} (hspec : spec.Admitted l e.1.ty) :
    (b.push i spec).Admitted l := by
  refine ⟨h.logic_eq, fun e' he' spec' hspec' => ?_⟩
  rcases mem_entries_push he he' with he' | rfl
  · exact h.specs e' he' spec' hspec'
  · rcases List.mem_append.1 hspec' with hspec' | hspec'
    · exact h.specs e (List.mem_of_getElem? he) spec' hspec'
    · obtain rfl := List.mem_singleton.1 hspec'
      exact hspec

theorem Admitted.declare (h : b.Admitted l) {name : String} {ty : Ty}
    (hb : b.declare name ty = .ok b') : b'.Admitted l := by
  obtain ⟨-, -, -, rfl⟩ := declare_eq_ok hb
  refine ⟨h.logic_eq, fun e he spec hspec => ?_⟩
  rcases List.mem_append.1 he with he | he
  · exact h.specs e he spec hspec
  · obtain rfl := List.mem_singleton.1 he
    simp at hspec

/-- What a builder accepts is in its logic. -/
theorem Admitted.of_accepts (h : b.Admitted l) {ty : Ty} {spec : RuleSpec}
    (hspec : b.Accepts ty spec) : spec.Admitted l ty := by
  obtain rfl := h.logic_eq
  cases spec with
  | term t => exact Logic.admits_eq_ok_iff.1 hspec.2
  | anyConstant => exact hspec
  | anyVariable => trivial

/-- A grammar that is taken over as it is written stays in the logic. -/
theorem admitted_ofSyntax {params : List Binder} {g : GrammarSyntax}
    (hb : ofSyntax params l g = .ok b) : b.Admitted l :=
  ofSyntax_keeps (admitted_new params l) (fun _ _ _ _ h hstep => h.declare hstep)
    (fun _ _ _ _ h he hspec => h.push he (h.of_accepts hspec)) hb

/-- All that is produced is in the logic, also the constants that are given at the end. -/
theorem admitted_of_mem_expand {ty : Ty} {spec : RuleSpec} (h : spec.Admitted l ty)
    {constants : List Int64} {t : Term} (ht : t ∈ b.expand constants ty spec) : l.Admitted t := by
  cases spec with
  | term u =>
    obtain rfl := List.mem_singleton.1 ht
    exact h
  | anyConstant =>
    cases ty with
    | bool =>
      rcases List.mem_pair.1 ht with rfl | rfl
      · exact .bool true
      · exact .bool false
    | int =>
      obtain ⟨c, -, rfl⟩ := List.mem_map.1 ht
      exact .int (h rfl) c
  | anyVariable => exact Grammar.admitted_of_mem_parameters ht

/-- The finished grammar is in the logic. -/
theorem Admitted.finish (h : b.Admitted l) (constants : List Int64) :
    (b.finish constants).Admitted l := by
  intro ts hts t ht
  obtain ⟨⟨n, specs⟩, he, rfl⟩ := List.mem_map.1 hts
  obtain ⟨spec, hspec, ht⟩ := List.mem_flatMap.1 (List.mem_eraseDups.1 ht)
  exact admitted_of_mem_expand (h.specs _ he spec hspec) ht

end GrammarBuilder

end InvariantSearch
