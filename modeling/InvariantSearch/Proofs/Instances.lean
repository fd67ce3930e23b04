import InvariantSearch.Proofs.Derivations

/-!
# Instances of rules

A term is an instance of a rule if the template of the rule with some terms in its holes is the
term. Matching decides this and finds the terms, each with the nonterminal of its hole
(`Grammar.match?_iff_instance`).

The terms that are put in may have names of nonterminals in them. They are not holes of the
instance: filling takes one term for each hole of the template and passes over what it has put in,
so such names are found in the instance just as they are in the terms (`Matches.holes_term`).
-/

namespace InvariantSearch

namespace Term

variable {index : String → Option Nat}

mutual

/-- The names of nonterminals in an instance are those in the terms that were put in. -/
theorem Matches.holes_term : {p t : Term} → {parts : List (Nat × Term)} →
    Matches index p t parts → t.holes index = holesAll index (parts.map Prod.snd)
  | _, _, _, .hole _ => by simp
  | _, _, _, .id h => by simp [holes_id, h]
  | _, _, _, .bool _ | _, _, _, .int _ => rfl
  | _, _, _, .app _ h | _, _, _, .nary _ h => by simp [h.holesAll_terms]
  | _, _, _, .unary _ h => by simp [h.holes_term]
  | _, _, _, .binary _ hs ht | _, _, _, .arith _ hs ht | _, _, _, .compare _ hs ht => by
    simp [hs.holes_term, ht.holes_term, holesAll]
  | _, _, _, .ite hc ht he => by
    simp [hc.holes_term, ht.holes_term, he.holes_term, holesAll]

theorem MatchesAll.holesAll_terms : {ps ts : List Term} → {parts : List (Nat × Term)} →
    MatchesAll index ps ts parts → holesAll index ts = holesAll index (parts.map Prod.snd)
  | _, _, _, .nil => rfl
  | _, _, _, .cons h hs => by
    rw [holesAll_cons, h.holes_term, hs.holesAll_terms]
    simp [holesAll]

end

end Term

namespace Grammar

variable {g : Grammar} {nt : Nat} {r : Rule}

/-- Matching the template of a rule finds the terms that the rule is instantiated by to make the
term, one for each hole, with the nonterminals of the holes from left to right. It fails if the term
is no instance of the rule. Filling takes no more terms than there are holes, whatever the terms
are, and leaves the names of nonterminals in them as they are. -/
theorem match?_iff_instance (hr : r ∈ g.rulesOf nt) :
    r.children = r.template.holes g.index ∧
    (∀ t parts, r.template.match? g.index t = some parts ↔
      ∃ ts, ts.length = r.children.length ∧ g.instantiate r ts = t ∧ r.children.zip ts = parts) ∧
    (∀ t parts, r.template.match? g.index t = some parts →
      g.instantiate r (parts.map Prod.snd) = t) ∧
    ∀ ts, ts.length = r.children.length →
      r.template.match? g.index (g.instantiate r ts) = some (r.children.zip ts) ∧
      (∀ rest, r.template.fill g.index (ts ++ rest) = (g.instantiate r ts, rest)) ∧
      (g.instantiate r ts).holes g.index = ts.flatMap (Term.holes g.index) := by
  have hinstance {ts : List Term} (length : ts.length = r.children.length) :=
    matches_instantiate hr length
  have hterms {ts : List Term} (length : ts.length = r.children.length) :
      (r.children.zip ts).map Prod.snd = ts := List.map_snd_zip (Nat.le_of_eq length)
  refine ⟨children_eq_of_mem hr, fun t parts => ⟨fun hmatch => ?_, ?_⟩, fun t parts hmatch => ?_,
    fun ts length => ⟨(hinstance length).match?_eq, fun rest => ?_, ?_⟩⟩
  · have hm := Term.match?_eq_some_iff.1 hmatch
    have hkids := map_fst_of_matches hr hm
    refine ⟨parts.map Prod.snd, ?_, instantiate_of_matches hm, ?_⟩
    · rw [← hkids, List.length_map, List.length_map]
    · rw [← hkids]
      exact (List.zip_of_prod rfl rfl).symm
  · rintro ⟨ts, length, rfl, rfl⟩
    exact (hinstance length).match?_eq
  · exact instantiate_of_matches (Term.match?_eq_some_iff.1 hmatch)
  · have hfill := (hinstance length).fill_eq rest
    rwa [hterms length] at hfill
  · rw [(hinstance length).holes_term, hterms length]
    rfl

/-- One literal, and a choice with a hole in each place, the second below a negation. -/
def choices : Grammar :=
  single [.bool true, .ite (.id "B") (.unary .not (.id "B")) (.id "B")]

/-- Two of the terms put into the choice are or have names of the nonterminal, which stay as they
are. -/
theorem match?_iff_instance_choices : ∃ r ∈ choices.rulesOf start,
    let ts : List Term := [.id "B", .bool true, .nary .and [.id "B", .id "x"]]
    let t : Term := .ite (.id "B") (.unary .not (.bool true)) (.nary .and [.id "B", .id "x"])
    choices.instantiate r ts = t ∧
      r.template.match? choices.index t = some (r.children.zip ts) ∧
      r.template.fill choices.index (ts ++ [.bool false]) = (t, [.bool false]) ∧
      t.holes choices.index = [0, 0] := by
  have hr : ⟨.ite (.id "B") (.unary .not (.id "B")) (.id "B"), [0, 0, 0], 2⟩ ∈
      choices.rulesOf start := by decide
  refine ⟨_, hr, rfl, ?_⟩
  obtain ⟨hmatch, hfill, hholes⟩ := (match?_iff_instance hr).2.2.2
    [.id "B", .bool true, .nary .and [.id "B", .id "x"]] rfl
  exact ⟨hmatch, hfill [.bool false], hholes⟩

end Grammar

end InvariantSearch
