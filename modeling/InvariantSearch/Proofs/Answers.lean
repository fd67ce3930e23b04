import InvariantSearch.Proofs.Derivations
import InvariantSearch.Proofs.Sessions

/-!
# Answers of the solver oracle

The solver oracle decides a condition by what the solver replies, and in no other way
(`Oracle.smt_decides`). It finds a condition valid only if the framed reply to `(check-sat)` is
`unsat`. It finds it false only if that reply is `sat` and the solver then gives a value for every
variable. A reply that is short, long, garbled or missing leaves the condition undecided.
-/

namespace InvariantSearch

/-! ## Assignments of pairs -/

namespace Assignment

variable {a : Assignment} {x : String} {v : Value} {entries pairs : List (String × Value)}

/-- A new name is put in somewhere. -/
theorem perm_insertEntry (h : x ∉ entries.map (·.1)) :
    (insertEntry x v entries).Perm ((x, v) :: entries) := by
  induction entries with
  | nil => exact .refl _
  | cons entry entries ih =>
    obtain ⟨y, w⟩ := entry
    obtain ⟨hxy, hentries⟩ := not_or.1 (mt List.mem_cons.2 h)
    rw [insertEntry]
    split
    next => exact .refl _
    next => exact ((ih hentries).cons _).trans (.swap _ _ _)

/-- Pairs with distinct new names are put in somewhere. -/
theorem perm_insertAll (hnames : ((a.entries ++ pairs).map (·.1)).Nodup) :
    (pairs.foldl (fun a p => a.insert p.1 p.2) a).entries.Perm (a.entries ++ pairs) := by
  induction pairs generalizing a with
  | nil => simp
  | cons pair pairs ih =>
    have hnew : pair.1 ∉ a.entries.map (·.1) := fun hmem => by
      rw [List.map_append, List.map_cons] at hnames
      exact (List.nodup_append.1 hnames).2.2 _ hmem _ List.mem_cons_self rfl
    have hinsert : (a.insert pair.1 pair.2).entries.Perm (pair :: a.entries) :=
      perm_insertEntry hnew
    have hmove : ((a.insert pair.1 pair.2).entries ++ pairs).Perm (a.entries ++ pair :: pairs) :=
      (hinsert.append_right pairs).trans List.perm_middle.symm
    exact (ih ((hmove.map _).nodup_iff.2 hnames)).trans hmove

/-- The assignment of pairs with distinct names consists of them. -/
theorem perm_ofList (hnames : (pairs.map (·.1)).Nodup) : (ofList pairs).entries.Perm pairs :=
  perm_insertAll (a := empty) hnames

theorem get?_eq_some_iff (hnames : (a.entries.map (·.1)).Nodup) :
    a.get? x = some v ↔ (x, v) ∈ a.entries := by
  rw [get?, Option.map_eq_some_iff]
  constructor
  · rintro ⟨entry, hfind, rfl⟩
    obtain rfl : entry.1 = x := by simpa using List.find?_some hfind
    exact List.mem_of_find?_eq_some hfind
  · intro hmem
    cases hfind : a.entries.find? (·.1 = x) with
    | none => exact absurd (decide_eq_true rfl) (List.find?_eq_none.1 hfind (x, v) hmem)
    | some entry =>
      have hentry : entry.1 = x := by simpa using List.find?_some hfind
      obtain rfl := List.inj_on_of_nodup_map hnames (List.mem_of_find?_eq_some hfind) hmem hentry
      exact ⟨_, rfl, rfl⟩

/-- It gives their values to the names and has no others. -/
theorem get?_ofList (hnames : (pairs.map (·.1)).Nodup) :
    (ofList pairs).get? x = some v ↔ (x, v) ∈ pairs := by
  have hperm := perm_ofList hnames
  rw [get?_eq_some_iff ((hperm.map _).nodup_iff.2 hnames), hperm.mem_iff]

end Assignment

/-! ## Models -/

namespace Session

/-- The reply lists pairs if it is a list of lists of two. -/
theorem pairs?_eq_some_iff {answer : Sexp} {values : List (Sexp × Sexp)} :
    pairs? answer = some values ↔ answer = .list (values.map fun (e, v) => .list [e, v]) := by
  have hpair (e : Sexp) (p : Sexp × Sexp) : pair? e = some p ↔ e = .list [p.1, p.2] := by
    unfold pair?
    split
    next e value => simp [Prod.ext_iff]
    next hne => simpa using fun h => hne _ _ h
  cases answer with
  | list items =>
    show items.mapM pair? = some values ↔ _
    simp only [mapM_eq_some_iff, hpair, Sexp.list.injEq]
    rw [← List.forall₂_eq_eq_eq]
    exact List.forall₂_map_right_iff.symm
  | atom | comment => simp [pairs?, Sexp.items?]

end Session

/-- A reply to the question for the values of variables gives the assignment. It is one list of
lists of two, at least as many as there are variables. The second item of the i-th list is a value
of the sort of the i-th variable. The assignment gives it this value, and no others have one. -/
def Assignment.IsReadFrom (a : Assignment) (vars : List Binder) (reply : String) : Prop :=
  ∃ (pairs : List (Sexp × Sexp)) (values : List Value),
    Sexp.parse reply = .ok (.list (pairs.map fun (e, v) => .list [e, v])) ∧
    vars.length ≤ pairs.length ∧
    List.Forall₂ (fun (b, _, e) v => Value.ofSexp? b.ty e = some v) (vars.zip pairs) values ∧
    a = .ofList ((vars.map (·.name)).zip values) ∧
    ∀ x v, a.get? x = some v ↔ (x, v) ∈ (vars.map (·.name)).zip values

namespace SmtOracle

variable {vars : List Binder} {pairs : List (Sexp × Sexp)} {a a' : Assignment}

/-- Values are read as far as there are variables and pairs. -/
theorem readValues_eq_ok_iff : readValues vars pairs a = .ok a' ↔ ∃ values,
    List.Forall₂ (fun (b, _, e) v => Value.ofSexp? b.ty e = some v) (vars.zip pairs) values ∧
    a' = ((vars.map (·.name)).zip values).foldl (fun a p => a.insert p.1 p.2) a := by
  induction vars generalizing pairs a with
  | nil => simp [readValues, eq_comm]
  | cons b bs ih =>
    cases pairs with
    | nil => simp [readValues, eq_comm]
    | cons pair pairs =>
      obtain ⟨e, value⟩ := pair
      rw [readValues]
      cases hvalue : Value.ofSexp? b.ty value with
      | none => simp [List.forall₂_cons_left_iff, hvalue]
      | some v => simp [List.forall₂_cons_left_iff, hvalue, ih]

theorem nodup_zip {names : List String} (hnames : names.Nodup) (values : List Value) :
    ((names.zip values).map (·.1)).Nodup := by
  rw [List.zip_eq_zip_take_min, List.map_fst_zip (by simp)]
  exact hnames.sublist (List.take_sublist _ _)

/-- A model is read from pairs exactly if they have a value for each variable. -/
theorem readModel_eq_ok_iff (hnames : (vars.map (·.name)).Nodup) :
    readModel vars pairs = .ok a ↔ vars.length ≤ pairs.length ∧ ∃ values,
      List.Forall₂ (fun (b, _, e) v => Value.ofSexp? b.ty e = some v) (vars.zip pairs) values ∧
      a = .ofList ((vars.map (·.name)).zip values) := by
  have hsize {values : List Value}
      (hvalues : List.Forall₂ (fun (b, _, e) v => Value.ofSexp? b.ty e = some v) (vars.zip pairs)
        values) :
      (Assignment.ofList ((vars.map (·.name)).zip values)).size = min vars.length pairs.length := by
    rw [Assignment.size, (Assignment.perm_ofList (nodup_zip hnames values)).length_eq]
    have hlength := hvalues.length_eq
    simp only [List.length_zip, List.length_map] at hlength ⊢
    omega
  rw [readModel, bind_eq_ok_iff]
  constructor
  · rintro ⟨a', hread, hcomplete⟩
    obtain ⟨values, hvalues, rfl⟩ := readValues_eq_ok_iff.1 hread
    split at hcomplete
    next hsame =>
      obtain rfl := Except.ok.inj hcomplete
      have hmin := (hsize hvalues).symm.trans hsame
      exact ⟨by omega, values, hvalues, rfl⟩
    next => cases hcomplete
  · rintro ⟨hle, values, hvalues, rfl⟩
    refine ⟨_, readValues_eq_ok_iff.2 ⟨values, hvalues, rfl⟩, ?_⟩
    have hsame : (Assignment.ofList ((vars.map (·.name)).zip values)).size = vars.length := by
      rw [hsize hvalues, Nat.min_eq_left hle]
    exact if_pos hsame

end SmtOracle

/-! ## Decisions -/

/-- Where each of some cases that leave out nothing determines the decision, this tells the case. -/
theorem Decision.spec_of_cases {d : Decision} {proves : Prop} {satisfies : Assignment → Prop}
    (hvalid : proves → d = .valid) (hinvalid : ∀ a, satisfies a → d = .invalid a)
    (hunknown : ¬proves → (∀ a, ¬satisfies a) → ∃ reason, d = .unknown reason) :
    (d = .valid ↔ proves) ∧ (∀ a, d = .invalid a ↔ satisfies a) ∧
      (¬proves → (∀ a, ¬satisfies a) → ∃ reason, d = .unknown reason) := by
  refine ⟨⟨fun hd => ?_, hvalid⟩, fun a => ⟨fun hd => ?_, hinvalid a⟩, hunknown⟩
  · by_contra hnot
    by_cases hsome : ∃ a, satisfies a
    · obtain ⟨a, ha⟩ := hsome
      cases hd.symm.trans (hinvalid a ha)
    · obtain ⟨reason, hreason⟩ := hunknown hnot (not_exists.1 hsome)
      cases hd.symm.trans hreason
  · by_cases hproves : proves
    · cases hd.symm.trans (hvalid hproves)
    · by_cases hsome : ∃ a', satisfies a'
      · obtain ⟨a', ha'⟩ := hsome
        obtain rfl := Decision.invalid.inj (hd.symm.trans (hinvalid a' ha'))
        exact ha'
      · obtain ⟨reason, hreason⟩ := hunknown hproves (not_exists.1 hsome)
        cases hd.symm.trans hreason

/-- Everything that the solver is told about a condition before it is asked. -/
def SmtConfig.commands (conf : SmtConfig) (c : Condition) : List Sexp :=
  Session.preamble (conf.launch.addOption "produce-models" "true") ++ SmtOracle.statement c

namespace Exchange

/-- The solver proves the assertions to be contradictory. -/
def Proves (x : Exchange) : Prop := ∃ x', x.Replies Session.satisfiability "unsat" x'

/-- The solver finds the assertions to hold under the assignment. If there are no variables, it is
not asked for their values. -/
def Satisfies (x : Exchange) (vars : List Binder) (a : Assignment) : Prop :=
  ∃ x', x.Replies Session.satisfiability "sat" x' ∧
    (vars = [] ∧ a = .empty ∨
      vars ≠ [] ∧ ∃ reply x'',
        x'.Replies (Session.valuesOf (vars.map fun b => .symbol b.name)) reply x'' ∧
        a.IsReadFrom vars reply)

end Exchange

namespace SmtOracle

open Session

variable {c : Condition} {x x' x'' : Exchange} {a : Assignment}

/-- Without a time limit no cancellation is planned. -/
theorem goes_watch {due : List Bool} (hdue : ∀ d ∈ due, d = false) (x : Exchange) :
    Goes (modify fun s => { s with cancellations := due, watched := false }) x () x :=
  goes_modify (fun _ hs => ⟨hs.running, hdue, rfl⟩) fun _ => rfl

theorem goes_checkWithin {answer : Satisfiability} (h : Goes checkSat x answer x') :
    Goes (checkWithin none) x answer x' := by
  refine (goes_watch (by simp) x).bind (h.bind ?_)
  exact (goes_watch (by simp) x').bind (goes_pure _ _)

theorem fails_checkWithin (h : Fails checkSat x) : Fails (checkWithin none) x :=
  (goes_watch (by simp) x).bind_fails h.bind

theorem goes_comment (text : String) (x : Exchange) : Goes (modify (comment text)) x () x :=
  goes_modify (fun _ hs => ⟨hs.running, hs.quiet, hs.unwatched⟩) fun _ => rfl

/-- The decision on a condition is what is read from the answer. -/
theorem goes_decideIn {answer : Satisfiability} {d : Decision}
    (h : Goes checkSat (x.tellAll (statement c)) answer x')
    (hd : Goes (readDecision c answer) x' d x'') : Goes (decideIn none c) x d x'' := by
  refine (goes_comment _ x).bind ((goes_sendAll _ x).bind ((goes_checkWithin h).bind (hd.bind ?_)))
  exact goes_save_bind fun _ => goes_pure _ _

theorem fails_decideIn_of_readDecision {answer : Satisfiability}
    (h : Goes checkSat (x.tellAll (statement c)) answer x')
    (hd : Fails (readDecision c answer) x') : Fails (decideIn none c) x :=
  (goes_comment _ x).bind_fails ((goes_sendAll _ x).bind_fails
    ((goes_checkWithin h).bind_fails hd.bind))

theorem fails_decideIn_of_checkSat (h : Fails checkSat (x.tellAll (statement c))) :
    Fails (decideIn none c) x :=
  (goes_comment _ x).bind_fails ((goes_sendAll _ x).bind_fails (fails_checkWithin h).bind)

/-- If there are no variables, nothing has to be read. -/
theorem goes_readDecision_nil (hvars : c.vars = []) (x : Exchange) :
    Goes (readDecision c .sat) x (.invalid .empty) x := by
  have hvalues : Goes (getValues (c.vars.map fun b => .symbol b.name)) x [] x := by
    rw [hvars]
    exact goes_pure [] x
  refine hvalues.bind ?_
  rw [hvars]
  exact goes_pure _ x

/-- A model is read as a counterexample. -/
theorem goes_readDecision (hnames : (c.vars.map (·.name)).Nodup) (hvars : c.vars ≠ [])
    {reply : String} (h : x.Replies (valuesOf (c.vars.map fun b => .symbol b.name)) reply x')
    (hread : a.IsReadFrom c.vars reply) : Goes (readDecision c .sat) x (.invalid a) x' := by
  obtain ⟨pairs, values, hparse, hle, hvalues, ha, -⟩ := hread
  have hmodel : readModel c.vars pairs = .ok a :=
    (readModel_eq_ok_iff hnames).2 ⟨hle, values, hvalues, ha⟩
  refine (goes_getValues (by simpa using hvars) h hparse (pairs?_eq_some_iff.2 rfl)).bind ?_
  rw [hmodel]
  exact goes_pure _ x'

/-- Anything else is no counterexample. -/
theorem fails_readDecision (hnames : (c.vars.map (·.name)).Nodup) (hvars : c.vars ≠ [])
    (h : ∀ reply x', x.Replies (valuesOf (c.vars.map fun b => .symbol b.name)) reply x' →
      ∀ a : Assignment, ¬a.IsReadFrom c.vars reply) : Fails (readDecision c .sat) x := by
  have hterms : (c.vars.map fun b => Sexp.symbol b.name) ≠ [] := by simpa using hvars
  by_cases hlist : ∃ reply x' answer pairs,
      x.Replies (valuesOf (c.vars.map fun b => .symbol b.name)) reply x' ∧
      Sexp.parse reply = .ok answer ∧ pairs? answer = some pairs
  · obtain ⟨reply, x', answer, pairs, hreply, hparse, hpairs⟩ := hlist
    refine (goes_getValues hterms hreply hparse hpairs).bind_fails ?_
    cases hmodel : readModel c.vars pairs with
    | error e => exact fails_throw e x'
    | ok a =>
      obtain ⟨hle, values, hvalues, ha⟩ := (readModel_eq_ok_iff hnames).1 hmodel
      rw [pairs?_eq_some_iff.1 hpairs] at hparse
      refine absurd ⟨pairs, values, hparse, hle, hvalues, ha, fun y v => ?_⟩ (h reply x' hreply a)
      rw [ha]
      exact Assignment.get?_ofList (nodup_zip hnames values)
  · refine (fails_getValues hterms fun reply x' hreply answer hparse => ?_).bind
    exact Option.eq_none_iff_forall_ne_some.2 fun pairs hpairs =>
      hlist ⟨reply, x', answer, pairs, hreply, hparse, hpairs⟩

/-- The decision on a condition, from what the solver says after the statement of its negation. -/
theorem goes_decideIn_of_proves (h : (x.tellAll (statement c)).Proves) :
    ∃ x', Goes (decideIn none c) x .valid x' := by
  obtain ⟨x', hreply⟩ := h
  exact ⟨x', goes_decideIn (goes_checkSat hreply (goes_pure _ _)) (goes_pure _ _)⟩

theorem goes_decideIn_of_satisfies (hnames : (c.vars.map (·.name)).Nodup)
    (h : (x.tellAll (statement c)).Satisfies c.vars a) :
    ∃ x', Goes (decideIn none c) x (.invalid a) x' := by
  obtain ⟨x', hreply, ⟨hvars, rfl⟩ | ⟨hvars, reply, x'', hvalues, hread⟩⟩ := h
  · exact ⟨x', goes_decideIn (goes_checkSat hreply (goes_pure _ _))
      (goes_readDecision_nil hvars x')⟩
  · exact ⟨x'', goes_decideIn (goes_checkSat hreply (goes_pure _ _))
      (goes_readDecision hnames hvars hvalues hread)⟩

theorem undecided_decideIn (hnames : (c.vars.map (·.name)).Nodup)
    (hproves : ¬(x.tellAll (statement c)).Proves)
    (hsatisfies : ∀ a, ¬(x.tellAll (statement c)).Satisfies c.vars a) :
    (∃ reason x', Goes (decideIn none c) x (.unknown reason) x') ∨ Fails (decideIn none c) x := by
  by_cases hsat : ∃ x', (x.tellAll (statement c)).Replies satisfiability "sat" x'
  · obtain ⟨x', hreply⟩ := hsat
    have hvars : c.vars ≠ [] := fun hvars => hsatisfies .empty ⟨x', hreply, .inl ⟨hvars, rfl⟩⟩
    refine .inr (fails_decideIn_of_readDecision (goes_checkSat hreply (goes_pure _ _)) ?_)
    exact fails_readDecision hnames hvars fun reply x'' hvalues a hread =>
      hsatisfies a ⟨x', hreply, .inr ⟨hvars, reply, x'', hvalues, hread⟩⟩
  · obtain ⟨reason, x', hgoes⟩ | hfails := undecided_checkSat (x := x.tellAll (statement c))
      fun reply x' hreply => ⟨fun h => hsat ⟨x', h ▸ hreply⟩, fun h => hproves ⟨x', h ▸ hreply⟩⟩
    · exact .inl ⟨reason, x', goes_decideIn hgoes (goes_pure _ _)⟩
    · exact .inr (fails_decideIn_of_checkSat hfails)

end SmtOracle

namespace Oracle

open Session SmtOracle

variable {programs : Programs} {conf : SmtConfig} {c : Condition} {run : Nat → ScriptedSolver}

theorem launch_command (conf : SmtConfig) : conf.launch.command = conf.command := by
  have htimeout : ((Launch.new conf.kind conf.command).setTimeout conf.kind conf.timeout).command =
      conf.command := by
    cases conf.kind <;> rfl
  rw [SmtConfig.launch]
  dsimp only
  split
  · exact htimeout
  · rw [← htimeout]
    cases conf.kind <;> rfl

/-- The exchange with a new solver after it was told options and logic. -/
def ready (conf : SmtConfig) (solver : ScriptedSolver) : Exchange :=
  Exchange.tellAll ⟨solver, []⟩ (preamble (conf.launch.addOption "produce-models" "true"))

/-- The oracle decides in a session with a new solver that is told options and logic. -/
theorem smt_eq (hprogram : programs conf.command = some run) (q : SmtState) : ∃ s : Session,
    s.Calm ∧ s.exchange = ready conf (run q.launches) ∧
    (smt programs conf c q).1 =
      match ((decideIn conf.timeout c).run.run s).1 with
      | .ok d => d
      | .error e => ofFailure e := by
  obtain ⟨s, hrun, ⟨hrunning, hquiet, hunwatched⟩, hx⟩ := sendAll_of_calm
    (preamble (conf.launch.addOption "produce-models" "true"))
    (s := ⟨.running false, run q.launches, [],
      if conf.saveQueries then some [.comment conf.launch.commandLine] else none, [], [], false⟩)
    ⟨⟨false, rfl⟩, by simp, rfl⟩
  have hstart : Session.start programs q.launches conf.launch conf.saveQueries = .ok s := by
    rw [Session.start, launch_command, hprogram]
    exact congrArg (fun r : Unit × Session => Except.ok r.2) hrun
  refine ⟨{ s with saved := q.saved }, ⟨hrunning, hquiet, hunwatched⟩, hx, ?_⟩
  rw [smt, hstart]
  rfl

/-- Without a time limit the decision is that of the session. -/
theorem smt_of_goes (hprogram : programs conf.command = some run) (htimeout : conf.timeout = none)
    (q : SmtState) {d : Decision}
    (h : ∃ x', Goes (decideIn none c) (ready conf (run q.launches)) d x') :
    (smt programs conf c q).1 = d := by
  obtain ⟨x', h⟩ := h
  obtain ⟨s, hs, hx, heq⟩ := smt_eq (c := c) hprogram q
  obtain ⟨s', hrun, -⟩ := h s hs hx
  rw [heq, htimeout, hrun]

/-- A session that fails leaves the condition undecided. -/
theorem smt_of_fails (hprogram : programs conf.command = some run) (htimeout : conf.timeout = none)
    (q : SmtState) (h : Fails (decideIn none c) (ready conf (run q.launches))) :
    ∃ reason, (smt programs conf c q).1 = .unknown reason := by
  obtain ⟨s, hs, hx, heq⟩ := smt_eq (c := c) hprogram q
  obtain ⟨e, s', hrun⟩ := h s hs hx
  rw [heq, htimeout, hrun]
  cases e <;> exact ⟨_, rfl⟩

/-- Let the variables of a condition have distinct names, and let there be no time limit. The oracle
finds the condition valid exactly if the solver, after it was told the negation, replies `unsat`. It
finds it false under an assignment exactly if the solver replies `sat` and, if there are variables,
gives this assignment as their values. In every other case it leaves the condition undecided; a
solver that closes its output before a reply is complete is one of these. -/
theorem smt_decides (hprogram : programs conf.command = some run) (htimeout : conf.timeout = none)
    (hnames : (c.vars.map (·.name)).Nodup) (q : SmtState) :
    let told := Exchange.tellAll ⟨run q.launches, []⟩ (conf.commands c)
    let d := (smt programs conf c q).1
    (d = .valid ↔ told.Proves) ∧ (∀ a, d = .invalid a ↔ told.Satisfies c.vars a) ∧
      (¬told.Proves → (∀ a, ¬told.Satisfies c.vars a) → ∃ reason, d = .unknown reason) := by
  have htold : Exchange.tellAll ⟨run q.launches, []⟩ (conf.commands c) =
      (ready conf (run q.launches)).tellAll (statement c) := List.foldl_append
  rw [htold]
  refine Decision.spec_of_cases (fun h => ?_) (fun a h => ?_) fun hnot hnone => ?_
  · exact smt_of_goes hprogram htimeout q (goes_decideIn_of_proves h)
  · exact smt_of_goes hprogram htimeout q (goes_decideIn_of_satisfies hnames h)
  · obtain ⟨reason, h⟩ | h := undecided_decideIn hnames hnot hnone
    · exact ⟨reason, smt_of_goes hprogram htimeout q h⟩
    · exact smt_of_fails hprogram htimeout q h

/-- A condition that is false for 1. -/
def belowOne : Condition := ⟨.init, [⟨"x", .int⟩], .compare .lt (.id "x") (.int 1)⟩

/-- A solver that finds this out. -/
def refuting : ScriptedSolver := .new [.text "sat", .text "((x 1))"] false

/-- A solver that closes its output before its first reply is complete. -/
def breakingOff : ScriptedSolver := .new [.closing "sat"] false

/-- A configuration without a time limit. -/
def unlimited : SmtConfig := ⟨.z3, "z3", .lia, none, 0, false⟩

theorem lines_satisfiability : lines satisfiability.render = ["(check-sat)"] := by decide +kernel

/-- The replies of one solver are its prepared texts, and the counterexample is read from them. The
other one is believed in nothing: what it wrote is no reply without the marker. -/
theorem smt_decides_belowOne :
    (smt (fun _ => some fun _ => refuting) unlimited belowOne ⟨0, []⟩).1 =
      .invalid ⟨[("x", .int 1)]⟩ ∧
    ∃ reason, (smt (fun _ => some fun _ => breakingOff) unlimited belowOne ⟨0, []⟩).1 =
      .unknown reason := by
  obtain ⟨-, hinvalid, -⟩ := @smt_decides (fun _ => some fun _ => refuting) unlimited belowOne
    (fun _ => refuting) rfl rfl (by decide) ⟨0, []⟩
  obtain ⟨-, -, hunknown⟩ := @smt_decides (fun _ => some fun _ => breakingOff) unlimited belowOne
    (fun _ => breakingOff) rfl rfl (by decide) ⟨0, []⟩
  rw [Exchange.tellAll_of_isPlain (by decide +kernel)] at hinvalid hunknown
  have hnone (reply : String) (x' : Exchange) :
      ¬Exchange.Replies ⟨breakingOff, []⟩ satisfiability reply x' :=
    Exchange.not_replies_closing rfl rfl lines_satisfiability (by decide +kernel) rfl
      (by decide +kernel)
  refine ⟨(hinvalid _).2 ?_, hunknown (fun ⟨x', h⟩ => hnone _ x' h)
    fun a ⟨x', h, _⟩ => hnone _ x' h⟩
  have hsat : Exchange.Replies ⟨refuting, []⟩ satisfiability "sat"
      ⟨{ refuting with replies := [.text "((x 1))"] }, []⟩ :=
    Exchange.replies_text rfl rfl lines_satisfiability (by decide +kernel) rfl (by decide +kernel)
      (by decide +kernel)
  have hvalues : Exchange.Replies ⟨{ refuting with replies := [.text "((x 1))"] }, []⟩
      (valuesOf [.symbol "x"]) "((x 1))" ⟨{ refuting with replies := [] }, []⟩ :=
    Exchange.replies_text rfl rfl
      (show lines (valuesOf [.symbol "x"]).render = ["(get-value (x))"] by decide +kernel)
      (by decide +kernel) rfl (by decide +kernel) (by decide +kernel)
  have hread : (⟨[("x", .int 1)]⟩ : Assignment).IsReadFrom belowOne.vars "((x 1))" := by
    have ha : (⟨[("x", .int 1)]⟩ : Assignment) = .ofList [("x", .int 1)] := by decide +kernel
    refine ⟨[(.symbol "x", .numeral 1)], [.int 1], rfl, by decide, ?_, ha, fun y v => ?_⟩
    · exact .cons (by decide +kernel) .nil
    · rw [ha]
      exact Assignment.get?_ofList (by decide)
  exact ⟨_, hsat, .inr ⟨by decide, _, _, hvalues, hread⟩⟩

end Oracle

end InvariantSearch
