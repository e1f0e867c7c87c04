import ClauseLearning.Proofs.Building
import ClauseLearning.Proofs.Formula.Additions
import ClauseLearning.Proofs.Formula.Retention
import ClauseLearning.Proofs.Soundness.Verdicts

/-!
# Additions preserve the meaning of a formula

The clauses of the formula as they are stored have the models of the clauses that were accepted, as long as no addition
came to an empty clause (`meaning_preserved`). What is stored is entailed, by the invariant. For the converse
(`Upheld`), a clause that is true already needs the history: the literal that makes it true is entailed by the clauses
accepted before, and these are upheld by induction. A solve keeps this, as it retains the clauses of the formula.
-/

namespace ClauseLearning

/-- Some addition was answered by the refutation of the formula. -/
def Log.refuted (log : Log) : Bool := log.any fun
  | (_, .ok .unsatisfiable) => true
  | _ => false

/-- What makes the stored clauses of the formula true makes the formula true. -/
def Upheld (F : List Clause) (store : ClauseStore) : Prop := ∀ σ : Assignment,
  (∀ (key : ClauseKey) (d : Array Literal), key.isGiven = true → store.find key = some d → Clause.TrueIn d.toList σ) →
    Models σ F

variable {F : List Clause} {s t : Solver} {c : Clause} {r : Addition} {m : Session} {config : Config}

/-! ## The stored clauses of the formula -/

namespace ClauseStore

variable {store : ClauseStore}

/-- The clauses of the formula are those with a key of the formula. -/
theorem Keyed.mem_givenClauses {d : StoredClause} (h : store.Keyed) :
    d ∈ store.givenClauses ↔ d.key.isGiven = true ∧ store.get d.key = .ok d := by
  simp only [givenClauses, List.mem_append, List.mem_map, Std.TreeSet.mem_toList]
  constructor
  · rintro ((⟨l, hl, rfl⟩ | hd) | hd)
    · exact ⟨rfl, get_givenUnit_iff.mpr ⟨hl, rfl⟩⟩
    · obtain ⟨i, hi⟩ := Array.mem_iff_getElem?.mp (Array.mem_toList_iff.mp hd)
      rw [h.givenBinary hi]
      exact ⟨rfl, get_givenBinary_iff.mpr hi⟩
    · obtain ⟨i, hi⟩ := Array.mem_iff_getElem?.mp (Array.mem_toList_iff.mp hd)
      rw [h.given hi]
      exact ⟨rfl, get_given_iff.mpr hi⟩
  · rintro ⟨hk, hd⟩
    cases hkey : d.key with
    | givenUnit l =>
      rw [hkey, get_givenUnit_iff] at hd
      exact Or.inl (Or.inl ⟨l, hd.1, hd.2.symm⟩)
    | givenBinary i =>
      rw [hkey, get_givenBinary_iff] at hd
      exact Or.inl (Or.inr (Array.mem_toList_iff.mpr (Array.mem_of_getElem? hd)))
    | given i =>
      rw [hkey, get_given_iff] at hd
      exact Or.inr (Array.mem_toList_iff.mpr (Array.mem_of_getElem? hd))
    | _ =>
      rw [hkey] at hk
      cases hk

/-- A clause with a key of the formula is listed with its key. -/
theorem Keyed.exists_givenClause {key : ClauseKey} {d : Array Literal} (h : store.Keyed) (hk : key.isGiven = true)
    (hd : store.find key = some d) : ∃ e ∈ store.givenClauses, e.key = key ∧ e.literals = d := by
  obtain ⟨e, he, hlits⟩ := find_eq_some_iff.mp hd
  have hkey := h.key_eq he
  refine ⟨e, h.mem_givenClauses.mpr ⟨?_, ?_⟩, hkey, hlits⟩
  · rwa [hkey]
  · rwa [hkey]

theorem Keyed.models_givenClauses (h : store.Keyed) (σ : Assignment) :
    Models σ (store.givenClauses.map (·.clause)) ↔
      ∀ (key : ClauseKey) (d : Array Literal), key.isGiven = true →
        store.find key = some d → Clause.TrueIn d.toList σ := by
  constructor
  · intro hσ key d hk hd
    obtain ⟨e, he, -, rfl⟩ := h.exists_givenClause hk hd
    exact hσ _ (List.mem_map_of_mem he)
  · intro hσ c hc
    obtain ⟨e, he, rfl⟩ := List.mem_map.mp hc
    obtain ⟨hk, hget⟩ := h.mem_givenClauses.mp he
    exact hσ e.key e.literals hk (find_of_get hget)

end ClauseStore

/-! ## What is upheld -/

/-- The order of literals does not matter, nor what is stored in addition. -/
theorem Upheld.retains {store store' : ClauseStore} (h : Upheld F store) (hs : store.Retains store') :
    Upheld F store' := by
  intro σ hσ
  refine h σ fun key d hk hd => ?_
  obtain ⟨d', hd', hp⟩ := hs.kept hk hd
  refine (hσ key d' hk hd').mono fun l hl => ?_
  exact Array.mem_toList_iff.mpr (hp.mem_iff.mp (Array.mem_toList_iff.mp hl))

/-- A clause is upheld if the formula before entails it or a stored clause of the formula is part of it. -/
theorem Upheld.join {store : ClauseStore} (h : Upheld F store)
    (hc : Entails F c ∨ ∃ key d, key.isGiven = true ∧ store.find key = some d ∧ ∀ l ∈ d, l ∈ c) :
    Upheld (F ++ [c]) store := by
  intro σ hσ d hd
  have hF := h σ hσ
  rcases List.mem_append.mp hd with hd | hd
  · exact hF d hd
  · rw [List.mem_singleton.mp hd]
    rcases hc with hc | ⟨key, e, hk, he, hsub⟩
    · exact hc σ hF
    · exact (hσ key e hk he).mono fun l hl => hsub l (Array.mem_toList_iff.mp hl)

/-- A literal that is true without a decision is entailed. -/
theorem Consistent.entails_of_holds {l : Literal} (h : Consistent F s) (hdec : s.trail.isDecided = false)
    (hl : l.atom ≠ topAtom) (hv : s.atoms.valuation.holds l = true) : Entails F [l] := by
  obtain ⟨i, hi⟩ := (h.agrees.holds_iff hl).mp hv
  exact h.entails_zero hi (Trail.hasLevel_zero_of_isDecided hdec i)

theorem Solver.Knows.ne_top {l : Literal} (h : s.Knows l) : l.atom ≠ topAtom := Nat.ne_of_gt h.1

/-- A clause is true by an entailed literal, or what is left of it is stored; only a refutation stores nothing. -/
theorem Upheld.adds (h : Upheld F s.clauses) (hs : Sound F s) (hc : Accepts s c) (ha : Adds s c r t)
    (hr : r ≠ .unsatisfiable) : Upheld (F ++ [c]) t.clauses := by
  have hstored : ∀ {key : ClauseKey}, s.reduced c.normalise ≠ [] →
      s.clauses.freshKey (s.reduced c.normalise) .given = .ok key →
        Upheld (F ++ [c]) (s.begun.stored (s.reduced c.normalise) key).clauses := by
    intro key hne hkey
    obtain ⟨G, hst⟩ := hc.stored hs hne hkey
    have hfind := hst.find key
    rw [if_pos rfl] at hfind
    refine (h.retains ⟨fun _ hd => ⟨_, hst.kept hd, .rfl⟩⟩).join
      (Or.inr ⟨key, _, hst.given.mpr rfl, hfind, fun l hl => ?_⟩)
    exact Clause.mem_normalise.mp (Solver.mem_reduced.mp (List.mem_toArray.mp hl)).1
  cases ha with
  | satisfied hl hholds =>
    refine h.join (Or.inl ((hs.entails_of_holds hc.undecided (hc.known _ hl).ne_top hholds).weaken fun k hk => ?_))
    rwa [List.mem_singleton.mp hk]
  | unsatisfiable _ => exact absurd rfl hr
  | @unit l hreduced =>
    have hkey : s.clauses.freshKey (s.reduced c.normalise) .given = .ok (.givenUnit l) := by
      rw [hreduced]
      rfl
    have hunit := hstored (by rw [hreduced]; simp) hkey
    rwa [hreduced] at hunit
  | longer hlen hkey => exact hstored (List.ne_nil_of_length_pos (by omega)) hkey

/-- The solver is sound for the clauses that were accepted, and these are upheld unless the formula is refuted. -/
def Meant (log : Log) (s : Solver) : Prop :=
  Sound log.accepted s ∧ (log.refuted = false → Upheld log.accepted s.clauses)

theorem meant_freshAtom {log : Log} (h : Meant log s) : Meant log (Solver.after Solver.freshAtom s) := by
  refine ⟨((freshAtom_spec h.1).run (P := fun _ t => Grown log.accepted s t) (fun _ _ ht => ht.1)
    fun _ _ ht => ht).sound, fun hlog => ?_⟩
  exact (h.2 hlog).retains (.of_givenPart (Solver.leaves_freshAtom.given s))

theorem meant_addClause {log : Log} (c : Clause) (h : Meant log s) :
    Meant (log ++ [(c, Solver.answer (Solver.addClause c) s)]) (Solver.after (Solver.addClause c) s) := by
  refine ⟨by simpa using (addClause_logged h.1 c).built.sound, fun hlog => ?_⟩
  rw [Log.refuted, List.any_append, Bool.or_eq_false_iff] at hlog
  have hupheld := h.2 hlog.1
  have hlast := hlog.2
  rw [Log.accepted_append]
  unfold Solver.answer Solver.after at *
  cases hr : Solver.addClause c s with
  | ok r t =>
    obtain ⟨hc, ha⟩ := adds_of_addClause h.1.toConsistent hr
    refine hupheld.adds h.1 hc ha ?_
    rintro rfl
    rw [hr] at hlast
    simp at hlast
  | error e t =>
    show Upheld (log.accepted ++ []) t.clauses
    rw [List.append_nil]
    rcases refuses_of_addClause h.1.toConsistent hr with ⟨-, rfl⟩ | ⟨-, -, rfl⟩
    · exact hupheld
    · exact hupheld

theorem keptByBuilding_meant : KeptByBuilding Meant := ⟨meant_freshAtom, meant_addClause⟩

theorem Session.meant_make (h : m.Faithful config) (hm : Meant m.log m.solver) (call : Call) :
    Meant (m.make call).log (m.make call).solver := by
  cases hb : call.builds with
  | true => exact Session.keeps_of_builds keptByBuilding_meant hb hm
  | false =>
    refine ⟨(h.make call).sound, ?_⟩
    cases call with
    | askToStop interrupt => exact hm.2
    | reseed random => exact hm.2
    | solve clock rounds => exact fun hlog => (hm.2 hlog).retains (Solver.solve_retains hm.1 clock rounds)
    | _ => cases hb

/-- By the calls, one after the other. -/
theorem meant_replay (config : Config) (calls : List Call) :
    Meant (replay config calls).log (replay config calls).solver := by
  have hall : ∀ m : Session, m.Faithful config → Meant m.log m.solver →
      Meant (m.makeAll calls).log (m.makeAll calls).solver := by
    induction calls with
    | nil => exact fun _ _ hm => hm
    | cons call calls ih => exact fun m h hm => ih (m.make call) (h.make call) (m.meant_make h hm call)
  refine hall _ (faithful_ofConfig config) ⟨(faithful_ofConfig config).sound, fun _ σ _ c hc => ?_⟩
  cases hc

/-! ## The meaning of the formula -/

/-- What was stored by an addition, as it is listed afterwards. -/
structure StoredFor (s t : Solver) (c : Clause) (d : StoredClause) : Prop where
  listed : d ∈ t.clauses.givenClauses
  ordered : d.clause.Pairwise fun k l => k.atom < l.atom
  subset : ∀ l ∈ d.clause, l ∈ c
  unvaluedBefore : ∀ l ∈ d.clause, s.atoms.valueOf l.atom = none
  unvaluedAfter : 2 ≤ d.clause.length → ∀ l ∈ d.clause, t.atoms.valueOf l.atom = none

theorem storedFor_of_adds {key : ClauseKey} (hs : Sound F s) (hc : Accepts s c) (ha : Adds s c (.added key) t) :
    ∃ d, d.key = key ∧ StoredFor s t c d := by
  have hstored : s.reduced c.normalise ≠ [] → s.clauses.freshKey (s.reduced c.normalise) .given = .ok key →
      ∃ d ∈ (s.begun.stored (s.reduced c.normalise) key).clauses.givenClauses,
        d.key = key ∧ d.clause = s.reduced c.normalise := by
    intro hne hkey
    obtain ⟨G, hst⟩ := hc.stored hs hne hkey
    have hfind := hst.find key
    rw [if_pos rfl] at hfind
    obtain ⟨d, hd, hk, hlits⟩ := hst.consistent.keyed.exists_givenClause (hst.given.mpr rfl) hfind
    exact ⟨d, hd, hk, by rw [StoredClause.clause, hlits]⟩
  have hfor : ∀ {d : StoredClause}, d.clause = s.reduced c.normalise → d ∈ t.clauses.givenClauses →
      (2 ≤ d.clause.length → t.atoms = s.atoms) → StoredFor s t c d := by
    intro d hd hlisted hsame
    have hnone : ∀ l ∈ d.clause, l ∈ c ∧ s.atoms.valueOf l.atom = none := by
      intro l hl
      rw [hd] at hl
      exact (Solver.mem_reduced.mp hl).imp_left Clause.mem_normalise.mp
    exact {
      listed := hlisted
      ordered := by rw [hd]; exact Solver.reduced_ordered hc.tautologyFree
      subset := fun l hl => (hnone l hl).1
      unvaluedBefore := fun l hl => (hnone l hl).2
      unvaluedAfter := fun h2 l hl => by rw [hsame h2]; exact (hnone l hl).2 }
  cases ha with
  | @unit l hreduced =>
    obtain ⟨d, hd, hk, hclause⟩ := hstored (by rw [hreduced]; simp) (by rw [hreduced]; rfl)
    rw [hreduced] at hd
    refine ⟨d, hk, hfor hclause hd fun h2 => ?_⟩
    rw [hclause, hreduced] at h2
    simp at h2
  | longer hlen hkey =>
    obtain ⟨d, hd, hk, hclause⟩ := hstored (List.ne_nil_of_length_pos (by omega)) hkey
    exact ⟨d, hk, hfor hclause hd fun _ => rfl⟩

/-- An addition gives an error just for the clauses that are refused, as long as there is a key for another clause, and
then nothing changes. The stored clauses of the formula have the models of the accepted clauses, as long as no addition
refuted the formula; an addition refutes it only if there is no model, and passes a clause as true only if the accepted
clauses entail it. What is stored of a clause is in the strict order of its atoms and has no valued literal. -/
theorem meaning_preserved (config : Config) (calls : List Call) (c : Clause) :
    let m := replay config calls
    let t := Solver.after (Solver.addClause c) m.solver
    (m.solver.clauses.givenCount < ClauseKey.slotCount →
      ∀ e u, Solver.addClause c m.solver = .error e u ↔ Refuses m.solver c e ∧ u = m.solver) ∧
    (m.log.refuted = false →
      ∀ σ, Models σ (m.solver.clauses.givenClauses.map (·.clause)) ↔ Models σ m.log.accepted) ∧
    (Solver.answer (Solver.addClause c) m.solver = .ok .unsatisfiable → ¬Satisfiable (m.log.accepted ++ [c])) ∧
    (Solver.answer (Solver.addClause c) m.solver = .ok .satisfied → Entails m.log.accepted c) ∧
    ∀ key, Solver.answer (Solver.addClause c) m.solver = .ok (.added key) →
      ∃ d, d.key = key ∧ StoredFor m.solver t c d := by
  intro m t
  obtain ⟨hsound, hupheld⟩ := meant_replay config calls
  have hok : ∀ {r}, Solver.answer (Solver.addClause c) m.solver = .ok r → Solver.addClause c m.solver = .ok r t := by
    intro r hr
    obtain ⟨u, hu⟩ := Solver.exists_ok_of_answer (m := Solver.addClause c) (a := r) (by rw [hr]; rfl)
    rw [hu, show t = u by simp only [t, Solver.after, hu]]
  refine ⟨fun hroom e u => ?_, fun hlog σ => ?_, fun hr => ?_, fun hr => ?_, fun key hr => ?_⟩
  · constructor
    · intro he
      rcases refuses_of_addClause hsound.toConsistent he with he | ⟨-, hfull, -⟩
      · exact he
      · exact absurd hroom (Nat.not_lt.mpr hfull)
    · rintro ⟨he, hu⟩
      rw [hu]
      exact addClause_of_refuses hsound.toConsistent he
  · rw [hsound.keyed.models_givenClauses]
    exact ⟨hupheld hlog σ, fun hσ key d _ hd => hsound.entailed hd σ hσ⟩
  · obtain ⟨-, ha⟩ := adds_of_addClause hsound.toConsistent (hok hr)
    have hstatus : t.status = .unsatisfiable := by
      generalize t = u at ha
      cases ha
      rfl
    exact ((addClause_spec hsound c).of_ok (hok hr)).sound.refuted hstatus
  · obtain ⟨hc, ha⟩ := adds_of_addClause hsound.toConsistent (hok hr)
    generalize t = u at ha
    cases ha with
    | satisfied hl hholds =>
      refine (hsound.entails_of_holds hc.undecided (hc.known _ hl).ne_top hholds).weaken fun k hk => ?_
      rwa [List.mem_singleton.mp hk]
  · obtain ⟨hc, ha⟩ := adds_of_addClause hsound.toConsistent (hok hr)
    exact storedFor_of_adds hsound hc ha

/-- With a unit clause in the formula, another clause loses the literal that it makes false, one is
true by it, and one is false. -/
theorem meaning_preserved_unit :
    let m := replay default [.ensureAtoms 3, .addClause [⟨1, true⟩]]
    let c : Clause := [⟨1, false⟩, ⟨2, false⟩, ⟨3, true⟩]
    (∀ e u, Solver.addClause c m.solver = .error e u ↔ Refuses m.solver c e ∧ u = m.solver) ∧
    (∀ σ, Models σ (m.solver.clauses.givenClauses.map (·.clause)) ↔ Models σ m.log.accepted) ∧
    ¬Satisfiable (m.log.accepted ++ [[⟨1, false⟩]]) ∧ Entails m.log.accepted [⟨1, true⟩, ⟨2, true⟩] ∧
    ∃ d, d.key = .givenBinary 0 ∧ StoredFor m.solver (Solver.after (Solver.addClause c) m.solver) c d := by
  have h1 : Clause.normalise [⟨1, true⟩] = [⟨1, true⟩] := Clause.Ordered.normalise (by decide)
  have h2 : Clause.normalise [⟨1, false⟩] = [⟨1, false⟩] := Clause.Ordered.normalise (by decide)
  have h3 : Clause.normalise [⟨1, true⟩, ⟨2, true⟩] = [⟨1, true⟩, ⟨2, true⟩] := Clause.Ordered.normalise (by decide)
  have h4 : Clause.normalise [⟨1, false⟩, ⟨2, false⟩, ⟨3, true⟩] = [⟨1, false⟩, ⟨2, false⟩, ⟨3, true⟩] :=
    Clause.Ordered.normalise (by decide)
  have heval := meaning_preserved default [.ensureAtoms 3, .addClause [⟨1, true⟩]]
  refine ⟨(heval _).1 ?_, (heval []).2.1 ?_, (heval _).2.2.1 (eq_ok_of_toOption ?_),
    (heval _).2.2.2.1 (eq_ok_of_toOption ?_), (heval _).2.2.2.2 (.givenBinary 0) (eq_ok_of_toOption ?_)⟩ <;>
  · simp only [replay, Session.makeAll, List.foldl, Session.make, Solver.addClause, Solver.defect, h1, h2, h3, h4]
    decide +kernel

end ClauseLearning
