import ClauseLearning.Proofs.Conflict.AssertingClause
import ClauseLearning.Proofs.Propagation.Antecedents

/-!
# The first unique implication point

The literals of the top level are the vertices of a graph: an edge leads from a literal to one whose antecedent has the
negation of the first (`Solver.Implies`), and to the conflict if the false clause has it (`Solver.Opposes`). Resolution
walks down the trail without this graph. What it marks is closed under edges backwards, so the one marked literal that
is left at the end is on every path from the decision to the conflict. The other way round, from each marked literal
there is a route to the conflict through what was resolved away, and whatever was resolved away, a route from some
marked literal avoids it. `Scanned` says so of each step of the walk. As every literal of the level can be reached from
the decision (`Sound.exists_path`), no later literal is on every path (`asserts_first_implication_point`).
-/

namespace ClauseLearning

open Resolution

variable {config : Config} {F : List Clause} {s t : Solver} {key reason : ClauseKey} {c d : Array Literal}
  {b b' : Resolution} {index i p : Nat} {k l pivot : Literal} {way : List Literal}

/-! ## Paths to the conflict -/

namespace Solver

/-- The first literal is a cause of the second: both are of the top level, and the antecedent of the second
has the negation of the first. -/
def Implies (s : Solver) (k l : Literal) : Prop :=
  k ∈ s.trail.topLevel ∧ l ∈ s.trail.topLevel ∧
    ∃ reason c, s.atoms.reasonOf l.atom = some reason ∧ s.clauses.get reason = .ok c ∧ -k ∈ c.clause

/-- The literal is a cause of the conflict: it is of the top level, and the false clause has its negation. -/
def Opposes (s : Solver) (key : ClauseKey) (l : Literal) : Prop :=
  l ∈ s.trail.topLevel ∧ ∃ c, s.clauses.get key = .ok c ∧ -l ∈ c.clause

/-- Each of the literals is a cause of the next, and the last one is a cause of the conflict. -/
inductive Route (s : Solver) (key : ClauseKey) : List Literal → Prop
  | last {l : Literal} (h : s.Opposes key l) : Route s key [l]
  | step {k l : Literal} {way : List Literal} (h : s.Implies k l) (hr : Route s key (l :: way)) :
      Route s key (k :: l :: way)

/-- A path from the decision of the top level to the conflict. -/
def Path (s : Solver) (key : ClauseKey) (way : List Literal) : Prop :=
  s.Route key way ∧ way.head? = s.trail.topLevel.head?

/-- There are paths from the decision of the top level to the conflict, the literal is on every one of them, and no
literal that comes later on the trail is. -/
structure FirstImplicationPoint (s : Solver) (key : ClauseKey) (pivot : Literal) : Prop where
  top : pivot ∈ s.trail.topLevel
  reached : ∃ way, s.Path key way
  passed : ∀ way, s.Path key way → pivot ∈ way
  first : ∀ (i j : Nat) (k : Literal), s.trail.literals[i]? = some pivot → i < j → s.trail.literals[j]? = some k →
    ∃ way, s.Path key way ∧ k ∉ way

theorem Route.top (h : s.Route key (l :: way)) : l ∈ s.trail.topLevel := by
  cases h with
  | last h => exact h.1
  | step h _ => exact h.1

end Solver

/-- Literals of the top level have the top level in the table. -/
theorem Agrees.mem_topLevel_iff {a : AtomTable} {t : Trail} (h : Agrees a t) (hp : t.literals[p]? = some l) :
    l ∈ t.topLevel ↔ a.levelOf l.atom = some t.level := by
  rw [h.layered.mem_topLevel_iff]
  constructor
  · rintro ⟨j, hj, hlev⟩
    obtain ⟨n, hn, hlev'⟩ := h.hasLevel hj
    rw [hn, hlev'.unique hlev]
  · intro hn
    exact ⟨p, hp, h.hasLevel_of hp hn⟩

theorem Agrees.levelOf_ne_zero {a : AtomTable} {t : Trail} (h : Agrees a t)
    (hlevel : 0 < t.level) (hl : l ∈ t.topLevel) : a.levelOf l.atom ≠ some 0 := by
  obtain ⟨p, hp, -⟩ := h.layered.mem_topLevel_iff.mp hl
  rw [(h.mem_topLevel_iff hp).mp hl]
  intro hzero
  have := Option.some.inj hzero
  omega

/-- A route from a literal of the top level is the end of a path, which comes through literals before this one. -/
theorem Sound.exists_path (h : Sound F s) (hlevel : 0 < s.trail.level) (hp : s.trail.literals[p]? = some l)
    (hr : s.Route key (l :: way)) :
    ∃ before, s.Path key (before ++ l :: way) ∧ ∀ m ∈ before, ∃ j, j < p ∧ s.trail.literals[j]? = some m := by
  -- by the position on the trail: a literal that is no decision has a cause at an earlier one
  induction p using Nat.strongRecOn generalizing l way with
  | _ p ih =>
    have hlev := h.agrees.hasLevel_of hp ((h.agrees.mem_topLevel_iff hp).mp hr.top)
    rcases h.justified hp with ⟨-, n, hn⟩ | ⟨reason, c, hreason, hfind, hf⟩
    · obtain ⟨start, hstart, hhead, hle⟩ := Trail.exists_start hlevel
      have hlast : n = s.trail.level - 1 := by
        have hlt : n < s.trail.level := (Array.getElem?_eq_some_iff.mp hn).1
        have := hle hlev
        by_contra hne
        have := h.agrees.layered.increasing hn hstart (by omega)
        omega
      rw [hlast] at hn
      obtain rfl := Option.some.inj (hn.symm.trans hstart)
      exact ⟨[], ⟨hr, by rw [hhead, hp]; rfl⟩, fun m hm => absurd hm List.not_mem_nil⟩
    · obtain ⟨m, hm, j, hj, hjm, hlevj⟩ := h.exists_same_level hp hfind hf hlev hlevel
      obtain ⟨e, hget, rfl⟩ := ClauseStore.find_eq_some_iff.mp hfind
      have htop : -m ∈ s.trail.topLevel := h.agrees.layered.mem_topLevel_iff.mpr ⟨j, hjm, hlevj⟩
      have himplies : s.Implies (-m) l :=
        ⟨htop, hr.top, reason, e, hreason, hget, by rw [Literal.neg_neg]; exact Array.mem_toList_iff.mpr hm⟩
      obtain ⟨before, hpath, hbefore⟩ := ih j hj hjm (.step himplies hr)
      refine ⟨before ++ [-m], by rwa [List.append_assoc], fun k hk => ?_⟩
      rcases List.mem_append.mp hk with hk | hk
      · obtain ⟨j', hj', hk⟩ := hbefore k hk
        exact ⟨j', by omega, hk⟩
      · rw [List.mem_singleton.mp hk]
        exact ⟨j, hj, hjm⟩

/-! ## A literal is resolved away -/

/-- The marked literal of the top level at the last position is resolved away with its antecedent. -/
structure Resolved (s : Solver) (b b' : Resolution) (index i : Nat) (pivot : Literal) (e : StoredClause) : Prop where
  before : i < index
  literal : s.trail.literals[i]? = some pivot
  seen : b.isSeen pivot.atom = true
  between : ∀ p l, i < p → p < index → s.trail.literals[p]? = some l → b.isSeen l.atom = false
  top : pivot ∈ s.trail.topLevel
  antecedent : ∃ reason, s.atoms.reasonOf pivot.atom = some reason ∧ s.clauses.get reason = .ok e
  forces : Forces s.trail e.literals i pivot
  marks : ∀ x, b'.isSeen x = true ↔ b.isSeen x = true ∨ ∃ l ∈ e.literals, l.atom = x ∧ s.atoms.levelOf x ≠ some 0

namespace Resolved

variable {e : StoredClause}

theorem keeps (h : Resolved s b b' index i pivot e) {x : Nat} (hx : b.isSeen x = true) : b'.isSeen x = true :=
  (h.marks x).mpr (Or.inl hx)

/-- The causes of the literal are those of which the antecedent has the negation. -/
theorem implies_iff (h : Resolved s b b' index i pivot e) :
    s.Implies l pivot ↔ l ∈ s.trail.topLevel ∧ -l ∈ e.literals := by
  obtain ⟨reason, hreason, hget⟩ := h.antecedent
  constructor
  · rintro ⟨htop, -, reason', e', hreason', hget', hmem⟩
    obtain rfl := Option.some.inj (hreason.symm.trans hreason')
    obtain rfl := Except.ok.inj (hget.symm.trans hget')
    exact ⟨htop, Array.mem_toList_iff.mp hmem⟩
  · rintro ⟨htop, hmem⟩
    exact ⟨htop, h.top, reason, e, hreason, hget, Array.mem_toList_iff.mpr hmem⟩

/-- The causes of the literal are marked. -/
theorem isSeen_cause (h : Resolved s b b' index i pivot e) (hs : Sound F s) (hlevel : 0 < s.trail.level)
    (hl : s.Implies l pivot) : b'.isSeen l.atom = true := by
  obtain ⟨htop, hmem⟩ := h.implies_iff.mp hl
  exact (h.marks l.atom).mpr (Or.inr ⟨-l, hmem, rfl, hs.agrees.levelOf_ne_zero hlevel htop⟩)

/-- What is marked was marked before, or has its negation in the antecedent and comes before the literal. -/
theorem seen_or_cause (h : Resolved s b b' index i pivot e) (hs : Sound F s) (hp : s.trail.literals[p]? = some l)
    (hl : b'.isSeen l.atom = true) : b.isSeen l.atom = true ∨ p < i ∧ -l ∈ e.literals := by
  rcases (h.marks l.atom).mp hl with hl | ⟨m, hm, hatom, -⟩
  · exact Or.inl hl
  · by_cases hmp : m = pivot
    · rw [← hatom, hmp]
      exact Or.inl h.seen
    · obtain ⟨j, hj, hjm⟩ := h.forces.others m hm hmp
      obtain rfl := hs.agrees.position_inj hp hjm hatom.symm
      obtain rfl := Option.some.inj (hp.symm.trans hjm)
      exact Or.inr ⟨hj, by rwa [Literal.neg_neg]⟩

/-- The literal has a cause, which comes before it. -/
theorem exists_cause (h : Resolved s b b' index i pivot e) (hs : Sound F s) (hlevel : 0 < s.trail.level) :
    ∃ j l, j < i ∧ s.trail.literals[j]? = some l ∧ s.Implies l pivot := by
  obtain ⟨reason, -, hget⟩ := h.antecedent
  have hlev := hs.agrees.hasLevel_of h.literal ((hs.agrees.mem_topLevel_iff h.literal).mp h.top)
  obtain ⟨m, hm, j, hj, hjm, hlevj⟩ :=
    hs.exists_same_level h.literal (ClauseStore.find_of_get hget) h.forces hlev hlevel
  refine ⟨j, -m, hj, hjm, h.implies_iff.mpr ⟨hs.agrees.layered.mem_topLevel_iff.mpr ⟨j, hjm, hlevj⟩, ?_⟩⟩
  rwa [Literal.neg_neg]

end Resolved

/-- What a step of the walk does, when marked literals of the top level come before the last one. -/
theorem Sound.resolved (h : Sound F s) (hlast : b.lastSeen s.trail.literals index = .ok i)
    (hpivot : s.trail.literals[i]? = some pivot) (hcurrent : 0 < seenOnTop s.atoms s.trail b i)
    (hreason : s.atoms.reasonOf pivot.atom = some reason) (hfind : s.clauses.find reason = some d)
    (hnotes : Notes s reason d b b') : ∃ e, Resolved s b b' index i pivot e := by
  obtain ⟨hi, ⟨pivot', hpivot', hseen⟩, hbetween⟩ := lastSeen_ok hlast
  obtain rfl := Option.some.inj (hpivot.symm.trans hpivot')
  obtain ⟨e, hget, rfl⟩ := ClauseStore.find_eq_some_iff.mp hfind
  obtain ⟨q, other, hq, hother, -, hlevel⟩ := seenOnTop_pos_iff.mp hcurrent
  have htop := levelOf_top h.agrees hother hlevel hpivot (Nat.le_of_lt hq)
  obtain ⟨j, m, c, hatom, hj, hc, hf⟩ := h.forces_of_reasonOf hreason
  obtain rfl := h.agrees.position_inj hj hpivot hatom
  obtain rfl := Option.some.inj (hj.symm.trans hpivot)
  obtain rfl := Option.some.inj (hc.symm.trans hfind)
  exact ⟨e, hi, hpivot, hseen, hbetween, (h.agrees.mem_topLevel_iff hpivot).mpr htop, ⟨reason, hreason, hget⟩, hf,
    fun _ => hnotes.isSeen_iff⟩

/-! ## What the walk keeps -/

/-- From something that is marked before the position, the conflict is reached without passing
the literal afterwards. -/
def Bypassed (s : Solver) (key : ClauseKey) (b : Resolution) (index : Nat) (m : Literal) : Prop :=
  ∃ p l way, p < index ∧ s.trail.literals[p]? = some l ∧ b.isSeen l.atom = true ∧ s.Route key (l :: way) ∧ m ∉ way

/-- The trail is walked down to a position, and what the clauses met so far have of the top level is marked. -/
structure Scanned (s : Solver) (key : ClauseKey) (b : Resolution) (index : Nat) : Prop where
  /-- The causes of the conflict are marked. -/
  opposed : ∀ {l : Literal}, s.Opposes key l → b.isSeen l.atom = true
  /-- The causes of what was resolved away are marked. -/
  closed : ∀ {p : Nat} {k l : Literal}, index ≤ p → s.trail.literals[p]? = some l → b.isSeen l.atom = true →
    s.Implies k l → b.isSeen k.atom = true
  /-- From what is marked, the conflict is reached through what was resolved away. -/
  routes : ∀ {p : Nat} {l : Literal}, p < index → s.trail.literals[p]? = some l → l ∈ s.trail.topLevel →
    b.isSeen l.atom = true → ∃ way, s.Route key (l :: way) ∧ ∀ m ∈ way, ∃ j, index ≤ j ∧ s.trail.literals[j]? = some m
  /-- Each literal after the position can be bypassed. -/
  around : ∀ {j : Nat} {m : Literal}, index ≤ j → s.trail.literals[j]? = some m → Bypassed s key b index m

/-- At first, the causes of the conflict are marked. -/
theorem Conflict.scanned (hc : Conflict s key c) (h : Consistent F s) (hlevel : 0 < s.trail.level)
    (hb : Notes s key c (s.resolution.refresh s.atoms.size) b) : Scanned s key b s.trail.literals.size := by
  obtain ⟨e, hget, rfl⟩ := ClauseStore.find_eq_some_iff.mp hc.find
  have hseen : ∀ x, b.isSeen x = true ↔ ∃ l ∈ e.literals, l.atom = x ∧ s.atoms.levelOf x ≠ some 0 := by
    intro x
    rw [hb.isSeen_iff, (refresh_spec h.clean s.atoms.size).2 x]
    simp
  refine ⟨fun {l} hl => ?_, fun {p k l} hp hl => ?_, fun {p l} _ hp htop hs => ?_, fun {j m} hj hm => ?_⟩
  · obtain ⟨htop, e', hget', hmem⟩ := hl
    obtain rfl := Except.ok.inj (hget.symm.trans hget')
    exact (hseen l.atom).mpr ⟨-l, Array.mem_toList_iff.mp hmem, rfl, h.agrees.levelOf_ne_zero hlevel htop⟩
  · have := (Array.getElem?_eq_some_iff.mp hl).1
    omega
  · obtain ⟨m, hm, hatom, -⟩ := (hseen l.atom).mp hs
    obtain ⟨j, hj⟩ := hc.falsified m hm
    obtain rfl := h.agrees.position_inj hp hj hatom.symm
    obtain rfl := Option.some.inj (hp.symm.trans hj)
    refine ⟨[], .last ⟨htop, e, hget, ?_⟩, fun m hm => absurd hm List.not_mem_nil⟩
    rw [Literal.neg_neg]
    exact Array.mem_toList_iff.mpr hm
  · have := (Array.getElem?_eq_some_iff.mp hm).1
    omega

namespace Scanned

variable {e : StoredClause} (hb : Scanned s key b index) (hr : Resolved s b b' index i pivot e) (h : Sound F s)
include hb hr h

theorem step_closed (hlevel : 0 < s.trail.level) (hp : i ≤ p) (hl : s.trail.literals[p]? = some l)
    (hs : b'.isSeen l.atom = true) (himp : s.Implies k l) : b'.isSeen k.atom = true := by
  rcases hr.seen_or_cause h hl hs with hs | ⟨hlt, -⟩
  · rcases Nat.lt_or_eq_of_le hp with hgt | rfl
    · by_cases hlt : p < index
      · rw [hr.between p l hgt hlt hl] at hs
        cases hs
      · exact hr.keeps (hb.closed (Nat.le_of_not_lt hlt) hl hs himp)
    · obtain rfl := Option.some.inj (hl.symm.trans hr.literal)
      exact hr.isSeen_cause h hlevel himp
  · omega

theorem step_routes (hp : p < i) (hl : s.trail.literals[p]? = some l) (htop : l ∈ s.trail.topLevel)
    (hs : b'.isSeen l.atom = true) :
    ∃ way, s.Route key (l :: way) ∧ ∀ m ∈ way, ∃ j, i ≤ j ∧ s.trail.literals[j]? = some m := by
  have hi := hr.before
  rcases hr.seen_or_cause h hl hs with hs | ⟨-, hmem⟩
  · obtain ⟨way, hway, hafter⟩ := hb.routes (by omega) hl htop hs
    refine ⟨way, hway, fun m hm => ?_⟩
    obtain ⟨j, hj, hjm⟩ := hafter m hm
    exact ⟨j, by omega, hjm⟩
  · obtain ⟨way, hway, hafter⟩ := hb.routes hi hr.literal hr.top hr.seen
    refine ⟨pivot :: way, .step (hr.implies_iff.mpr ⟨htop, hmem⟩) hway, fun m hm => ?_⟩
    rcases List.mem_cons.mp hm with rfl | hm
    · exact ⟨i, Nat.le_refl i, hr.literal⟩
    · obtain ⟨j, hj, hjm⟩ := hafter m hm
      exact ⟨j, by omega, hjm⟩

/-- Around what was not resolved away before, the route of another marked literal leads. -/
theorem step_around_new {q j : Nat} {m : Literal} (hq : q < i) (hother : s.trail.literals[q]? = some k)
    (htop : k ∈ s.trail.topLevel) (hseen : b.isSeen k.atom = true)
    (hj : j < index) (hm : s.trail.literals[j]? = some m) : Bypassed s key b' i m := by
  have hi := hr.before
  obtain ⟨way, hway, hafter⟩ := hb.routes (by omega) hother htop hseen
  refine ⟨q, k, way, hq, hother, hr.keeps hseen, hway, fun hmem => ?_⟩
  obtain ⟨j', hj', hjm⟩ := hafter m hmem
  have := h.agrees.position_eq hm hjm
  omega

/-- Around what was resolved away before, the same route leads as before, continued if it begins with the
literal that is resolved away now. -/
theorem step_around_old (hlevel : 0 < s.trail.level) {j : Nat} {m : Literal} (hj : index ≤ j)
    (hm : s.trail.literals[j]? = some m) : Bypassed s key b' i m := by
  have hi := hr.before
  obtain ⟨p, l, way, hp, hl, hs, hway, hnot⟩ := hb.around hj hm
  rcases Nat.lt_trichotomy p i with hpi | rfl | hpi
  · exact ⟨p, l, way, hpi, hl, hr.keeps hs, hway, hnot⟩
  · obtain rfl := Option.some.inj (hl.symm.trans hr.literal)
    obtain ⟨q, k, hq, hk, himp⟩ := hr.exists_cause h hlevel
    refine ⟨q, k, l :: way, hq, hk, hr.isSeen_cause h hlevel himp, .step himp hway, fun hin => ?_⟩
    rcases List.mem_cons.mp hin with rfl | hin
    · have := h.agrees.position_eq hm hl
      omega
    · exact hnot hin
  · rw [hr.between p l hpi hp hl] at hs
    cases hs

end Scanned

/-- A step of the walk keeps what the walk so far has come to. -/
theorem Scanned.step (hb : Scanned s key b index) (h : Sound F s) (hlevel : 0 < s.trail.level)
    (hlast : b.lastSeen s.trail.literals index = .ok i) (hpivot : s.trail.literals[i]? = some pivot)
    (hcurrent : 0 < seenOnTop s.atoms s.trail b i) (hreason : s.atoms.reasonOf pivot.atom = some reason)
    (hfind : s.clauses.find reason = some d) (hnotes : Notes s reason d b b') : Scanned s key b' i := by
  obtain ⟨e, hr⟩ := h.resolved hlast hpivot hcurrent hreason hfind hnotes
  obtain ⟨q, k, hq, hk, hseen, hlevelk⟩ := seenOnTop_pos_iff.mp hcurrent
  have htop := (h.agrees.mem_topLevel_iff hk).mpr hlevelk
  refine ⟨fun hl => hr.keeps (hb.opposed hl), fun hp hl hs himp => ?_, fun hp hl htop hs => ?_, fun {j m} hj hm => ?_⟩
  · exact hb.step_closed hr h hlevel hp hl hs himp
  · exact hb.step_routes hr h hp hl htop hs
  · by_cases hlt : j < index
    · exact hb.step_around_new hr h hq hk htop hseen hlt hm
    · exact hb.step_around_old hr h hlevel (Nat.le_of_not_lt hlt) hm

/-! ## Where the walk ends -/

/-- A route past the only marked literal before the position starts with a literal that was resolved away. -/
theorem Scanned.past (hb : Scanned s key b index) (h : Sound F s)
    (halone : ∀ {p : Nat} {l : Literal}, p < index → s.trail.literals[p]? = some l → l ∈ s.trail.topLevel →
      b.isSeen l.atom = true → l = pivot)
    (hway : s.Route key way) (hnot : pivot ∉ way) (hl : way.head? = some l) :
    b.isSeen l.atom = true ∧ ∀ p, s.trail.literals[p]? = some l → index ≤ p := by
  have hafter : b.isSeen l.atom = true → l ∈ s.trail.topLevel → ∀ p, s.trail.literals[p]? = some l → index ≤ p := by
    intro hs htop p hp
    by_contra hlt
    obtain rfl := halone (Nat.lt_of_not_le hlt) hp htop hs
    exact hnot (List.mem_of_mem_head? hl)
  induction hway generalizing l with
  | last hopp =>
    obtain rfl := Option.some.inj hl
    have hs := hb.opposed hopp
    exact ⟨hs, hafter hs hopp.1⟩
  | @step k m way himp hr ih =>
    obtain rfl := Option.some.inj hl
    have hnot' : pivot ∉ m :: way := fun hin => hnot (List.mem_cons_of_mem k hin)
    obtain ⟨hs, hpast⟩ := ih hnot' rfl fun hs htop p hp => by
      by_contra hlt
      obtain rfl := halone (Nat.lt_of_not_le hlt) hp htop hs
      exact hnot' List.mem_cons_self
    obtain ⟨p, hp, -⟩ := h.agrees.layered.mem_topLevel_iff.mp himp.2.1
    have hs' := hb.closed (hpast p hp) hp hs himp
    exact ⟨hs', hafter hs' himp.1⟩

/-- Where one marked literal of the top level is left, it is the first implication point. -/
theorem Scanned.firstImplicationPoint (hb : Scanned s key b index) (h : Sound F s) (hlevel : 0 < s.trail.level)
    (hlast : b.lastSeen s.trail.literals index = .ok i) (hpivot : s.trail.literals[i]? = some pivot)
    (htop : s.atoms.levelOf pivot.atom = some s.trail.level) (hzero : seenOnTop s.atoms s.trail b i = 0) :
    s.FirstImplicationPoint key pivot := by
  obtain ⟨hi, ⟨pivot', hpivot', hseen⟩, hbetween⟩ := lastSeen_ok hlast
  obtain rfl := Option.some.inj (hpivot.symm.trans hpivot')
  have hpivotTop := (h.agrees.mem_topLevel_iff hpivot).mpr htop
  have halone : ∀ {p : Nat} {l : Literal}, p < index → s.trail.literals[p]? = some l → l ∈ s.trail.topLevel →
      b.isSeen l.atom = true → l = pivot := by
    intro p l hp hl hltop hs
    rcases Nat.lt_trichotomy p i with hlt | rfl | hgt
    · have : 0 < seenOnTop s.atoms s.trail b i :=
        seenOnTop_pos_iff.mpr ⟨p, l, hlt, hl, hs, (h.agrees.mem_topLevel_iff hl).mp hltop⟩
      omega
    · exact Option.some.inj (hl.symm.trans hpivot)
    · rw [hbetween p l hgt hp hl] at hs
      cases hs
  obtain ⟨way, hway, hafter⟩ := hb.routes hi hpivot hpivotTop hseen
  obtain ⟨before, hpath, hbefore⟩ := h.exists_path hlevel hpivot hway
  refine ⟨hpivotTop, ⟨_, hpath⟩, fun path hpath' => ?_, fun i' j k hi' hj hk => ?_⟩
  · by_contra hnot
    obtain ⟨start, -, hhead, hle⟩ := Trail.exists_start hlevel
    have hstart : start ≤ i := hle (h.agrees.hasLevel_of hpivot htop)
    obtain ⟨l, hl⟩ : ∃ l, s.trail.literals[start]? = some l :=
      ⟨_, Array.getElem?_eq_getElem (Nat.lt_of_le_of_lt hstart (Array.getElem?_eq_some_iff.mp hpivot).1)⟩
    have hpast := (hb.past h halone hpath'.1 hnot (by rw [hpath'.2, hhead, hl])).2 start hl
    omega
  · obtain rfl := h.agrees.position_eq hpivot hi'
    -- the way to the pivot comes through earlier literals only
    have haround : ∀ {way : List Literal}, s.Route key (pivot :: way) →
        k ∉ way → ∃ path, s.Path key path ∧ k ∉ path := by
      intro way hway hnot
      obtain ⟨before, hpath, hbefore⟩ := h.exists_path hlevel hpivot hway
      refine ⟨_, hpath, fun hin => ?_⟩
      rcases List.mem_append.mp hin with hin | hin
      · obtain ⟨j', hj', hk'⟩ := hbefore k hin
        have := h.agrees.position_eq hk hk'
        omega
      · rcases List.mem_cons.mp hin with rfl | hin
        · have := h.agrees.position_eq hk hpivot
          omega
        · exact hnot hin
    by_cases hlt : j < index
    · refine haround hway fun hin => ?_
      obtain ⟨j', hj', hk'⟩ := hafter k hin
      have := h.agrees.position_eq hk hk'
      omega
    · obtain ⟨p, l, way', hp, hl, hs, hway', hnot⟩ := hb.around (Nat.le_of_not_lt hlt) hk
      obtain rfl := halone hp hl hway'.top hs
      exact haround hway' hnot

/-! ## Main result -/

/-- Where a round comes to a conflict above level zero, resolution walks down to the first unique implication point, and
derives a clause of which the negation of this literal comes first. This is the literal that is learned. -/
theorem asserts_first_implication_point (h : AtConflict config key t) :
    ∃ pivot rest buffer,
      Resolution.walk t.clauses t.atoms t.trail key 0 t.trail.literals.size (t.resolution.refresh t.atoms.size) =
        (.ok pivot, buffer) ∧
      t.resolution.resolve key t.clauses t.atoms t.trail = (.ok (-pivot :: rest), buffer) ∧
      t.FirstImplicationPoint key pivot ∧
      ∀ lesson u, Solver.analyse key t = .ok lesson u → lesson.literal = -pivot := by
  obtain ⟨F, c, hs, hlevel, hc⟩ := h.sound
  obtain ⟨hwalking, hcount⟩ := hc.walking hs.toConsistent
  obtain ⟨pivot, buffer, index, i, hwalk, hgathered, hscanned, hlast, hpivot, hzero⟩ :=
    Resolution.walk_induction (P := Scanned t key) hs.toConsistent hlevel
      (fun _ hb hlast hpivot hcurrent hreason hfind hnotes =>
        hb.step hs hlevel hlast hpivot hcurrent hreason hfind hnotes)
      hwalking fun _ hnotes => hc.scanned hs.toConsistent hlevel hnotes
  rw [hcount] at hwalk
  obtain ⟨pivot', hpivot', -, htop, -⟩ := hgathered.pivot hs.toConsistent hlast
  obtain rfl := Option.some.inj (hpivot.symm.trans hpivot')
  obtain ⟨first, rest, buffer', hres, hd, hlearns⟩ := analyse_asserts hs hlevel hc
  obtain ⟨rest', hasserting, -⟩ := Resolution.asserting_spec (a := t.atoms) (-pivot) buffer.lower fun l hl => by
    obtain ⟨-, -, n, hn, -⟩ := hgathered.noted.below hl
    rw [hn]
    exact Nat.succ_pos n
  have hresolve : t.resolution.resolve key t.clauses t.atoms t.trail = (.ok (-pivot :: rest'), buffer) := by
    rw [Resolution.resolve, if_pos hs.clean.covers_atoms, hwalk, ← hasserting]
  refine ⟨pivot, rest', buffer, hwalk, hresolve, hscanned.firstImplicationPoint hs hlevel hlast hpivot htop hzero,
    fun lesson u hu => ?_⟩
  rw [hresolve] at hres
  obtain ⟨rfl, -⟩ := List.cons.inj (Except.ok.inj (Prod.mk.inj hres).1)
  exact ((Solver.yields_iff.mp hlearns).1 lesson u hu).2.literal_eq

/-- At the conflict of the clauses `1 2 3` and `1 ¬2 3`, both `¬3` and `2` are of the top level, and `¬3` is the first
implication point. -/
theorem asserts_first_implication_point_opposed : AtConflict default (.given 1) opposed ∧
    opposed.trail.topLevel = [⟨3, false⟩, ⟨2, true⟩] ∧ opposed.FirstImplicationPoint (.given 1) ⟨3, false⟩ := by
  obtain ⟨pivot, rest, buffer, -, hres, hpoint, -⟩ := asserts_first_implication_point atConflict_opposed
  obtain ⟨hpivot, -⟩ := eq_of_resolve_opposed hres
  have hpivot : pivot = ⟨3, false⟩ := by rw [← Literal.neg_neg pivot, hpivot]; rfl
  rw [hpivot] at hpoint
  obtain ⟨htop, -⟩ := opposed_eq
  exact ⟨atConflict_opposed, htop, hpoint⟩

end ClauseLearning
