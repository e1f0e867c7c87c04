import ClauseLearning.Proofs.Changes
import ClauseLearning.Proofs.Conflict.Premises

/-!
# What is bumped at a conflict

An atom has a rating, its activity beside the next bump, and so has a long learned clause. To bump one adds the bump to
its activity and leaves the others as they are, and a rescaling scales all activities and the bump (`ActivityChange`).
`BumpedBy` says that ratings are changed by bumps of given things in given order, with rescalings in between. The
analysis of a conflict bumps the atoms and the premises that resolution has used (`Derived.bumps`), and what it bumps
after that is the clause it has stored, which had no rating before. As atoms and premises are used once, they are bumped
once (`used_and_bumped_once`).
-/

namespace ClauseLearning

/-! ## Ratings and their changes -/

/-- The activity of a thing, and what it would gain by a bump. -/
structure Rating where
  activity : Float
  bump : Float

/-- A change of activities. -/
inductive ActivityChange (ι : Type)
  /-- The activity of one thing grows by the bump. -/
  | bump (i : ι)
  /-- All activities and the bump are scaled. -/
  | rescale (factor : Float)

namespace ActivityChange

variable {ι : Type}

/-- What is bumped. -/
def target : ActivityChange ι → Option ι
  | bump i => some i
  | rescale _ => none

/-- The rating of a thing after a change. -/
def apply [DecidableEq ι] (i : ι) (r : Rating) : ActivityChange ι → Rating
  | bump j => if j = i then { r with activity := r.activity + r.bump } else r
  | rescale factor => ⟨r.activity * factor, r.bump * factor⟩

end ActivityChange

/-- The things that have ratings are bumped as in the list, in this order, with rescalings in between. -/
def BumpedBy {ι : Type} [DecidableEq ι] (xs : List ι) (before after : ι → Option Rating) : Prop :=
  ∃ changes : List (ActivityChange ι), changes.filterMap ActivityChange.target = xs ∧
    ∀ i r, before i = some r → after i = some (changes.foldl (ActivityChange.apply i) r)

namespace BumpedBy

variable {ι : Type} [DecidableEq ι] {xs ys : List ι} {f g h : ι → Option Rating}

theorem refl (f : ι → Option Rating) : BumpedBy [] f f := ⟨[], rfl, fun _ _ hr => hr⟩

theorem trans (hfg : BumpedBy xs f g) (hgh : BumpedBy ys g h) : BumpedBy (xs ++ ys) f h := by
  obtain ⟨changes, hxs, hfg⟩ := hfg
  obtain ⟨changes', hys, hgh⟩ := hgh
  refine ⟨changes ++ changes', by rw [List.filterMap_append, hxs, hys], fun i r hr => ?_⟩
  rw [List.foldl_append]
  exact hgh i _ (hfg i r hr)

/-- One change of all ratings. -/
theorem of_change (change : ActivityChange ι) (h : ∀ i r, f i = some r → g i = some (change.apply i r)) :
    BumpedBy change.target.toList f g := by
  refine ⟨[change], ?_, h⟩
  cases change <;> rfl

/-- To bump what has no rating changes no rating. -/
theorem of_unrated {i : ι} (hi : f i = none) : BumpedBy [i] f f := by
  refine of_change (.bump i) fun j r hr => ?_
  have hne : i ≠ j := by
    rintro rfl
    rw [hi] at hr
    cases hr
  rw [ActivityChange.apply, if_neg hne, hr]

/-- Bumps of what has no rating do not matter. -/
theorem filter (h : BumpedBy xs f g) {p : ι → Bool} (hp : ∀ i, (f i).isSome = true → p i = true) :
    BumpedBy (xs.filter p) f g := by
  obtain ⟨changes, rfl, hfg⟩ := h
  refine ⟨changes.filter fun c => c.target.all p, ?_, fun i r hr => ?_⟩
  · rw [List.filterMap_filter, List.filter_filterMap]
    congr 1
    funext c
    cases c with
    | bump j => cases hj : p j <;> simp [ActivityChange.target, hj, Option.filter_some]
    | rescale factor => rfl
  · have hpi : p i = true := hp i (by rw [hr]; rfl)
    rw [hfg i r hr, List.foldl_filter]
    congr 2
    funext r c
    cases c with
    | bump j =>
      -- what is passed over is another thing
      have hne : p j = false → j ≠ i := by
        rintro hj rfl
        rw [hpi] at hj
        cases hj
      cases hj : p j <;> simp [ActivityChange.target, ActivityChange.apply, hj, hne]
    | rescale factor => rfl

end BumpedBy

/-! ## Atoms -/

namespace AtomTable

variable {a b : AtomTable}

/-- The rating of an atom. -/
def rating (a : AtomTable) (x : Nat) : Option Rating :=
  a.activity.values[x]?.map fun activity => ⟨activity, a.bump.value⟩

theorem rating_eq (hv : b.activity.values = a.activity.values) (hb : b.bump = a.bump) : b.rating = a.rating := by
  funext x
  rw [rating, hv, hb, rating]

theorem rating_eq_some_iff {x : Nat} {r : Rating} :
    a.rating x = some r ↔ a.activity.values[x]? = some r.activity ∧ a.bump.value = r.bump := by
  obtain ⟨activity, bump⟩ := r
  simp only [rating, Option.map_eq_some_iff, Rating.mk.injEq]
  constructor
  · rintro ⟨_, hv, rfl, hb⟩
    exact ⟨hv, hb⟩
  · rintro ⟨hv, hb⟩
    exact ⟨_, hv, rfl, hb⟩

theorem Aligned.isSome_rating (h : a.Aligned) {x : Nat} (hx : x < a.size) : (a.rating x).isSome = true := by
  have hlt : x < a.activity.values.size := by
    rw [← h.activity] at hx
    exact hx
  rw [rating, Array.getElem?_eq_getElem hlt]
  rfl

theorem Aligned.bumpedBy_rescale (h : a.Aligned) : BumpedBy [] a.rating a.rescale.rating := by
  have hh := (h.linked.holds_mapValues_reheap (· * (1 / a.activity.values.foldl floatMax a.bump.value))).holds_after
  refine .of_change (.rescale (1 / a.activity.values.foldl floatMax a.bump.value)) fun x r hr => ?_
  obtain ⟨hv, hb⟩ := rating_eq_some_iff.mp hr
  refine rating_eq_some_iff.mpr ⟨?_, ?_⟩
  · rw [rescale, hh.values, Array.getElem?_map, hv]
    rfl
  · rw [ActivityChange.apply, ← hb]
    rfl

theorem Aligned.bumpedBy_bumpActivity (h : a.Aligned) (x : Nat) : BumpedBy [x] a.rating (a.bumpActivity x).rating := by
  have hh := h.linked.after_revalue_restore x (a.activityOf x + a.bump.value)
  refine .of_change (.bump x) fun y r hr => ?_
  obtain ⟨hv, hb⟩ := rating_eq_some_iff.mp hr
  rw [rating_eq_some_iff, bumpActivity, hh.values, ActivityChange.apply]
  by_cases hy : x = y
  · subst hy
    have hlt := (Array.getElem?_eq_some_iff.mp hv).1
    rw [if_pos rfl, Array.getElem?_setIfInBounds_self_of_lt hlt, activityOf, IndexHeap.valueAt, hv, hb]
    exact ⟨rfl, rfl⟩
  · rw [if_neg hy, Array.getElem?_setIfInBounds_ne hy]
    exact ⟨hv, hb⟩

theorem Aligned.bumpedBy_bumpRelative (h : a.Aligned) (x : Nat) : BumpedBy [x] a.rating (a.bumpRelative x).rating := by
  unfold bumpRelative
  simp only
  split
  · exact h.bumpedBy_rescale.trans (((sameValues_rescale a).aligned h).bumpedBy_bumpActivity x)
  · exact h.bumpedBy_bumpActivity x

theorem Aligned.bumpedBy_foldl_bumpRelative (h : a.Aligned) (xs : List Nat) :
    BumpedBy xs a.rating (xs.foldl bumpRelative a).rating := by
  induction xs generalizing a with
  | nil => exact .refl a.rating
  | cons x xs ih => exact (h.bumpedBy_bumpRelative x).trans (ih ((sameValues_bumpRelative a x).aligned h))

end AtomTable

/-! ## Clauses -/

namespace ClauseStore

variable {s s' : ClauseStore} {key : ClauseKey} {c : StoredClause} {r : Rating}

/-- The rating of a clause, which has one if it is learned and long. -/
def rating (s : ClauseStore) (key : ClauseKey) : Option Rating :=
  if key.isRemovable then (s.get key).toOption.map fun c => ⟨c.activity, s.bump.value⟩ else none

theorem rating_eq_some_iff : s.rating key = some r ↔
    key.isRemovable = true ∧ ∃ c, s.get key = .ok c ∧ c.activity = r.activity ∧ s.bump.value = r.bump := by
  obtain ⟨activity, bump⟩ := r
  unfold rating
  split
  · rename_i hk
    cases hget : s.get key <;> simp [Except.toOption, hk]
  · rename_i hk
    simp [hk]

theorem isSome_rating (hk : key.isRemovable = true) (hget : s.get key = .ok c) : (s.rating key).isSome = true :=
  Option.isSome_iff_exists.mpr ⟨⟨c.activity, s.bump.value⟩, rating_eq_some_iff.mpr ⟨hk, c, hget, rfl, rfl⟩⟩

/-- A change that keeps all clauses and the bump changes no rating. -/
theorem bumpedBy_of_kept (hget : ∀ {k c}, s.get k = .ok c → s'.get k = .ok c) (hbump : s'.bump = s.bump) :
    BumpedBy [] s.rating s'.rating := by
  refine ⟨[], rfl, fun k r hr => ?_⟩
  obtain ⟨hk, c, hc, ha, hb⟩ := rating_eq_some_iff.mp hr
  exact rating_eq_some_iff.mpr ⟨hk, c, hget hc, ha, hbump ▸ hb⟩

theorem bumpedBy_rescale (s : ClauseStore) : BumpedBy [] s.rating s.rescale.rating := by
  refine .of_change (.rescale (1 / s.bump.greatest)) fun k r hr => ?_
  obtain ⟨hk, c, hc, ha, hb⟩ := rating_eq_some_iff.mp hr
  cases k with
  | learned i token =>
    obtain ⟨hslot, hkey⟩ := get_learned_iff.mp hc
    refine rating_eq_some_iff.mpr ⟨hk, { c with activity := c.activity * (1 / s.bump.greatest) },
      get_learned_iff.mpr ⟨?_, hkey⟩, ?_, ?_⟩
    · rw [rescale, Array.getElem?_map, hslot]
      rfl
    · rw [ActivityChange.apply, ← ha]
    · rw [ActivityChange.apply, ← hb]
      rfl
  | _ => cases hk

/-- The clause in a slot becomes more active. -/
theorem bumpedBy_setIfInBounds {i token : Nat} (hslot : s.learnedSlots[i]? = some (some c))
    (hkey : c.key = .learned i token) :
    BumpedBy [ClauseKey.learned i token] s.rating { s with
      learnedSlots :=
        s.learnedSlots.setIfInBounds i (some { c with activity := c.activity + s.bump.value }) }.rating := by
  refine .of_change (.bump (ClauseKey.learned i token)) fun k r hr => ?_
  obtain ⟨hk, d, hd, ha, hb⟩ := rating_eq_some_iff.mp hr
  cases k with
  | learned j n =>
    obtain ⟨hj, hdkey⟩ := get_learned_iff.mp hd
    rw [rating_eq_some_iff, ActivityChange.apply]
    by_cases hij : i = j
    · subst hij
      obtain rfl : c = d := Option.some.inj (Option.some.inj (hslot.symm.trans hj))
      have hlt := (Array.getElem?_eq_some_iff.mp hslot).1
      rw [if_pos (hkey.symm.trans hdkey)]
      refine ⟨rfl, _, get_learned_iff.mpr ⟨Array.getElem?_setIfInBounds_self_of_lt hlt, hdkey⟩, ?_, hb⟩
      rw [ha, hb]
    · rw [if_neg fun heq => hij (ClauseKey.learned.inj heq).1]
      exact ⟨rfl, d, get_learned_iff.mpr ⟨by rw [Array.getElem?_setIfInBounds_ne hij, hj], hdkey⟩, ha, hb⟩
  | _ => cases hk

theorem bumpedBy_bumpActivity (s : ClauseStore) (key : ClauseKey) :
    BumpedBy [key] s.rating (s.bumpActivity key).rating := by
  cases key with
  | learned i token =>
    cases hget : s.get (.learned i token) with
    | error e =>
      have hsame : s.bumpActivity (.learned i token) = s := by
        simp only [bumpActivity]
        split
        · rename_i c hslot
          refine if_neg fun hkey => ?_
          rw [get_learned_iff.mpr ⟨hslot, hkey⟩] at hget
          cases hget
        · rfl
      rw [hsame]
      apply BumpedBy.of_unrated
      rw [rating, hget]
      rfl
    | ok c =>
      obtain ⟨hslot, hkey⟩ := get_learned_iff.mp hget
      have hbumped := bumpedBy_setIfInBounds hslot hkey
      simp only [bumpActivity, hslot]
      rw [if_pos hkey]
      split
      · exact hbumped.trans (bumpedBy_rescale _)
      · exact hbumped
  | _ => exact .of_unrated rfl

theorem bumpedBy_foldl_bumpActivity (s : ClauseStore) (keys : List ClauseKey) :
    BumpedBy keys s.rating (keys.foldl ClauseStore.bumpActivity s).rating := by
  induction keys generalizing s with
  | nil => exact .refl s.rating
  | cons key keys ih => exact (s.bumpedBy_bumpActivity key).trans (ih _)

theorem bump_insert (s : ClauseStore) (c : Clause) (source : ClauseSource) : (s.insert c source).2.bump = s.bump := by
  have htake : (s.takeFree c source).bump = s.bump := by
    unfold takeFree
    split <;> rfl
  unfold ClauseStore.insert
  split
  · rename_i key _
    cases key <;> exact htake
  · exact htake

theorem Keyed.bumpedBy_insert (h : s.Keyed) (c : Clause) (source : ClauseSource) :
    BumpedBy [] s.rating (s.insert c source).2.rating :=
  bumpedBy_of_kept (h.get_insert c source) (s.bump_insert c source)

theorem Keyed.issued_of_rating (h : s.Keyed) (hr : (s.rating key).isSome = true) : s.Issued key := by
  obtain ⟨r, hr⟩ := Option.isSome_iff_exists.mp hr
  obtain ⟨-, c, hc, -⟩ := rating_eq_some_iff.mp hr
  exact h.issued (find_of_get hc)

theorem isRemovable_of_rating (hr : (s.rating key).isSome = true) : key.isRemovable = true := by
  obtain ⟨r, hr⟩ := Option.isSome_iff_exists.mp hr
  exact (rating_eq_some_iff.mp hr).1

theorem isUnit_of_rating (hr : (s.rating key).isSome = true) : key.isUnit = false := by
  cases key with
  | givenUnit l => cases hr
  | learnedUnit l => cases hr
  | _ => rfl

end ClauseStore

/-! ## What an analysis bumps -/

/-- From the one solver to the other, the atoms and clauses of the lists are bumped. Other clauses may be stored. -/
structure Bumped (s : Solver) (xs : List Nat) (keys : List ClauseKey) (t : Solver) : Prop where
  tracks : Tracks t.atoms t.trail
  keyed : t.clauses.Keyed
  issued : ∀ k, (s.clauses.rating k).isSome = true → t.clauses.Issued k
  atoms : BumpedBy xs s.atoms.rating t.atoms.rating
  clauses : BumpedBy (keys.filter fun k => (s.clauses.rating k).isSome) s.clauses.rating t.clauses.rating

/-- What is bumped for a conflict. -/
theorem Sound.bumped_bumpedFor {F : List Clause} {s : Solver} {b : Resolution} (h : Sound F s) (c : Clause)
    (hclean : b.Clean) : Bumped s (s.config.atomsToBump c b) b.premises.toList (s.bumpedFor c b) := by
  obtain ⟨hu, -⟩ := s.alike_bumpedFor c hclean
  have hlater := hu.clauses.later h.keyed
  exact ⟨h.agrees.tracks.of_sameValues hu.atoms, hlater.keyed, fun k hk => hlater.issued (h.keyed.issued_of_rating hk),
    h.agrees.tracks.aligned.bumpedBy_foldl_bumpRelative _,
    (s.clauses.bumpedBy_foldl_bumpActivity _).filter fun _ hk => hk⟩

namespace Bumped

variable {s t : Solver} {xs : List Nat} {keys ks : List ClauseKey} {store : ClauseStore}

theorem onClauses (h : Bumped s xs keys t) (hlater : t.clauses.Later store)
    (hb : BumpedBy ks t.clauses.rating store.rating) : Bumped s xs (keys ++ ks) { t with clauses := store } where
  tracks := h.tracks
  keyed := hlater.keyed
  issued k hk := hlater.issued (h.issued k hk)
  atoms := h.atoms
  clauses := by
    have hboth := (h.clauses.trans hb).filter fun _ hk => hk
    simp only [List.filter_append, List.filter_filter, Bool.and_self] at hboth
    rwa [List.filter_append]

/-- A backjump bumps nothing. -/
theorem backjumped (h : Bumped s xs keys t) (level : Nat) : Bumped s xs keys (t.backjumped level) where
  tracks := h.tracks.backjump level
  keyed := h.keyed
  issued := h.issued
  atoms := by
    rw [Solver.backjumped, AtomTable.rating_eq (h.tracks.aligned.activities_dropAll _) (AtomTable.dropAll_eq _ _).1]
    exact h.atoms
  clauses := h.clauses

theorem keeps_backjump (level : Nat) : Solver.AlwaysKeeps (Bumped s xs keys) (Solver.backjump level) :=
  fun _ h => (Solver.yields_backjump_of_tracks h.tracks).mpr (h.backjumped level)

/-- Storing a clause bumps nothing. The key has no rating at first. -/
theorem yields_store (h : Bumped s xs keys t) (c : Clause) (source : ClauseSource) :
    Solver.Yields (Solver.store c source) t (fun key u => Bumped s xs keys u ∧ s.clauses.rating key = none)
      fun _ u => Bumped s xs keys u := by
  have hstored := h.onClauses (h.keyed.later_insert c source) (h.keyed.bumpedBy_insert c source)
  rw [List.append_nil] at hstored
  simp only [Solver.store, Solver.yields_bind, Solver.yields_onClauses]
  cases hi : t.clauses.insert c source with
  | mk answer store =>
    rw [hi] at hstored
    cases answer with
    | error e => exact Solver.yields_ofExcept_error.mpr hstored
    | ok key =>
      obtain ⟨-, -, -, hnew, -⟩ := h.keyed.insert_ok hi
      have hkey : s.clauses.rating key = none := by
        rw [← Option.not_isSome_iff_eq_none]
        exact fun hr => hnew (ClauseStore.isUnit_of_rating hr) (h.issued key hr)
      have hwatch : Solver.AlwaysKeeps (Bumped s xs keys) (Solver.watch c key) :=
        Solver.keeps_watch (E := fun _ u => Bumped s xs keys u) (fun _ h => h)
          (fun h _ => ⟨h.tracks, h.keyed, h.issued, h.atoms, h.clauses⟩) c key
      rw [Solver.yields_ofExcept_ok]
      exact (hwatch _ hstored).imp (fun _ u hu => Solver.yields_pure.mpr ⟨hu, hkey⟩) fun _ _ hu => hu

/-- The bump of a clause that had no rating at first does not matter. -/
theorem of_unrated {key : ClauseKey} (h : Bumped s xs (keys ++ [key]) t) (hkey : s.clauses.rating key = none) :
    Bumped s xs keys t :=
  { h with clauses := by simpa [List.filter_append, hkey] using h.clauses }

/-- To learn a clause bumps no other clause that was there. -/
theorem keeps_learn (first : Literal) (rest : Clause) :
    Solver.AlwaysKeeps (Bumped s xs keys) (Solver.learn first rest) := by
  unfold Solver.learn
  split
  · refine Solver.keeps_bind (keeps_backjump 0) fun _ t h => ?_
    exact Solver.yields_bind.mpr ((h.yields_store _ _).imp (fun _ _ hu => hu.1) fun _ _ hu => hu)
  · refine Solver.leads_get fun _ _ => Solver.keeps_bind (Solver.keeps_ofExcept fun _ _ _ h => h) fun level => ?_
    refine Solver.keeps_bind (keeps_backjump level) fun _ => Solver.leads_get fun _ _ => ?_
    refine Solver.leads_ite (Solver.leads_throw_bind (E := fun _ u => Bumped s xs keys u) (fun _ h => h) _)
      fun t h => ?_
    refine Solver.yields_bind.mpr ((h.yields_store _ _).imp (fun key u hu => ?_) fun _ _ hu => hu)
    obtain ⟨hu, hkey⟩ := hu
    rw [Solver.yields_bind, Solver.bumpClauses, Solver.yields_onClauses, Solver.yields_pure]
    have hbumped := hu.onClauses ((ClauseStore.sameClauses_bumpActivity u.clauses key).later hu.keyed)
      (u.clauses.bumpedBy_bumpActivity key)
    exact hbumped.of_unrated hkey

end Bumped

/-- The analysis of a conflict bumps the atoms that it is to bump, and the premises. -/
theorem Derived.bumps {F : List Clause} {s : Solver} {key : ClauseKey}
    {first : Literal} {rest : Clause} {b : Resolution}
    (hd : Derived F s first rest) (h : Sound F s) (hlevel : 0 < s.trail.level)
    (hres : s.resolution.resolve key s.clauses s.atoms s.trail = (.ok (first :: rest), b)) (hclean : b.Clean)
    (hsize : b.seen.size = s.atoms.size) :
    Bumped s (s.config.atomsToBump (first :: rest) b) b.premises.toList (Solver.after (Solver.analyse key) s) := by
  have hknown : ∀ x ∈ s.config.atomsToBump (first :: rest) b, x < s.atoms.size :=
    fun _ hx => hd.lt_of_mem_atomsToBump h.toConsistent hclean hsize hx
  have hbumped := h.bumped_bumpedFor (first :: rest) hclean
  exact ((Solver.yields_analyse h.agrees.aligned hlevel hres hknown).mpr
    (Bumped.keeps_learn first rest _ hbumped)).holds_after

/-! ## Main result -/

/-- What resolution has used is bumped from the one solver to the other. -/
structure BumpedOnce (s : Solver) (b : Resolution) (t : Solver) : Prop where
  /-- The atoms used have an activity. -/
  rated_atoms : ∀ x ∈ b.atoms, (s.atoms.rating x).isSome = true
  /-- So have the premises that are learned and long. -/
  rated_clauses : ∀ k ∈ b.premises, k.isRemovable = true → (s.clauses.rating k).isSome = true
  /-- The atoms used are bumped, and no others, if this is how atoms gain activity. -/
  atoms : s.config.vsids.value = .miniSat → BumpedBy b.atoms.toList s.atoms.rating t.atoms.rating
  /-- Of the clauses that were stored, those premises are bumped and no others. -/
  clauses : BumpedBy (b.premises.toList.filter (·.isRemovable)) s.clauses.rating t.clauses.rating

/-- Where a round comes to a conflict above level zero, resolution uses each clause and each atom once, and the
analysis bumps each of them once. -/
theorem used_and_bumped_once {config : Config} {key : ClauseKey} {t : Solver} (h : AtConflict config key t) :
    ∃ first rest buffer, t.resolution.resolve key t.clauses t.atoms t.trail = (.ok (first :: rest), buffer) ∧
      UsedOnce t key first rest buffer ∧ BumpedOnce t buffer (Solver.after (Solver.analyse key) t) := by
  obtain ⟨F, c, hs, hlevel, hc⟩ := h.sound
  obtain ⟨first, rest, buffer, hres, hd, hclean, hsize, hused⟩ := hc.usedOnce hs hlevel
  have hbumps := hd.bumps hs hlevel hres hclean hsize
  have hrated : ∀ k ∈ buffer.premises, k.isRemovable = true → (t.clauses.rating k).isSome = true := by
    intro k hk hr
    obtain ⟨c, hget⟩ := hused.stored k hk
    exact ClauseStore.isSome_rating hr hget
  refine ⟨first, rest, buffer, hres, hused, fun x hx => ?_, hrated, fun hvsids => ?_, ?_⟩
  · refine hs.agrees.tracks.aligned.isSome_rating ?_
    rw [← hsize]
    exact hclean.marked hx
  · have hatoms := hbumps.atoms
    simp only [Config.atomsToBump, hvsids] at hatoms
    exact hatoms
  · have hclauses := hbumps.clauses
    rwa [List.filter_congr (q := fun k => k.isRemovable)] at hclauses
    intro k hk
    rw [Bool.eq_iff_iff]
    exact ⟨fun hr => ClauseStore.isRemovable_of_rating hr, hrated k (Array.mem_toList_iff.mp hk)⟩

/-- What resolution uses at the conflict of the clauses `1 2 3` and `1 ¬2 3`. -/
theorem opposed_used :
    let buffer := (opposed.resolution.resolve (.given 1) opposed.clauses opposed.atoms opposed.trail).2
    opposed.config.vsids.value = .miniSat ∧ buffer.premises = #[.given 1, .given 0] ∧ buffer.atoms = #[2, 3, 1] := by
  obtain ⟨h1, h2⟩ := normalise_opposedClauses
  simp only [opposed, opposedClauses, replay, Session.makeAll,
    List.foldl, Session.make, Solver.addClause, Solver.defect, h1, h2]
  decide +kernel

/-- There all three atoms are bumped, in the order in which they are used. -/
theorem used_and_bumped_once_opposed : AtConflict default (.given 1) opposed ∧
    ∃ buffer, buffer.premises = #[.given 1, .given 0] ∧ UsedOnce opposed (.given 1) ⟨3, true⟩ [⟨1, true⟩] buffer ∧
      BumpedBy [2, 3, 1] opposed.atoms.rating (Solver.after (Solver.analyse (.given 1)) opposed).atoms.rating := by
  obtain ⟨first, rest, buffer, hres, hused, hbumped⟩ := used_and_bumped_once atConflict_opposed
  obtain ⟨rfl, rfl⟩ := eq_of_resolve_opposed hres
  obtain ⟨hvsids, hpremises, hatoms⟩ := opposed_used
  simp only [hres] at hpremises hatoms
  have hbumps := hbumped.atoms hvsids
  rw [hatoms] at hbumps
  exact ⟨atConflict_opposed, buffer, hpremises, hused, hbumps⟩

end ClauseLearning
