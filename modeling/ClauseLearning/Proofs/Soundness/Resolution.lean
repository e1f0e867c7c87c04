import ClauseLearning.Proofs.Soundness.Propagation

/-!
# Resolution gives an entailed clause

`walk_spec` is about the walk down the trail. The buffer marks the atoms of the clauses met so far (`Noted`) and the
count is that of the marked positions of the top level that are still to come (`seenOnTop`). With these, what is noted
stands for a clause that the formula entails (`Resolution.Covers`): some literal noted for a lower level is true, or the
negation of some marked literal of the top level. This holds before a clause is noted (`Walking`) and after it
(`Gathered`). `resolve_spec` says of the result that its first literal is the negation of a literal of the top level and
that the others are false at levels between zero and the top one, the highest of these coming first.
-/

namespace ClauseLearning

namespace Resolution

variable {a : AtomTable} {t : Trail} {b b' : Resolution} {n i p x : Nat} {k l : Literal} {σ : Assignment}

/-! ## Marks -/

theorem isSeen_mark (hx : x < b.seen.size) (y : Nat) : (b.mark x).isSeen y = if y = x then true else b.isSeen y := by
  unfold isSeen mark
  grind

theorem lt_size_of_isSeen (hs : b.isSeen x = true) : x < b.seen.size := by
  by_contra hx
  rw [isSeen, Array.getElem?_eq_none (Nat.le_of_not_lt hx)] at hs
  cases hs

theorem getElem?_seen (hx : x < b.seen.size) : b.seen[x]? = some (b.isSeen x) := by
  rw [isSeen, Array.getElem?_eq_getElem hx]
  rfl

/-- All marks can be cleared. -/
theorem Clean.covers_atoms (h : b.Clean) : b.coversAtoms = true := by
  rw [coversAtoms, Array.all_eq_true']
  exact fun _ hx => decide_eq_true (h.marked hx)

theorem refresh_spec (h : b.Clean) (n : Nat) : (b.refresh n).seen.size = n ∧ ∀ x, (b.refresh n).isSeen x = false := by
  have hfold : ∀ (xs : List Nat) (seen : Array Bool),
      (xs.foldl (fun seen a => seen.setIfInBounds a false) seen).size = seen.size ∧
        ∀ x : Nat, (xs.foldl (fun seen a => seen.setIfInBounds a false) seen)[x]?.getD false =
          if x ∈ xs then false else seen[x]?.getD false := by
    intro xs
    induction xs with
    | nil => intro seen; simp
    | cons y xs ih =>
      intro seen
      obtain ⟨h1, h2⟩ := ih (seen.setIfInBounds y false)
      refine ⟨by rw [List.foldl_cons, h1, Array.size_setIfInBounds], fun x => ?_⟩
      rw [List.foldl_cons, h2]
      grind
  obtain ⟨h1, h2⟩ := hfold b.atoms.toList b.seen
  have hclear :
      ∀ x : Nat, (b.atoms.foldl (fun seen a => seen.setIfInBounds a false) b.seen)[x]?.getD false = false := by
    intro x
    rw [← Array.foldl_toList, h2]
    split
    · rfl
    · rename_i hx
      by_contra hs
      exact hx (Array.mem_toList_iff.mpr (h.listed (by simpa [isSeen] using hs)))
  unfold refresh isSeen
  simp only [Array.shrink_eq_take, Array.take_eq_extract]
  refine ⟨by simp; omega, fun x => ?_⟩
  have := hclear x
  grind

/-- The number of marked positions of the top level below `n`. -/
def seenOnTop (a : AtomTable) (t : Trail) (b : Resolution) : Nat → Nat
  | 0 => 0
  | n + 1 =>
    seenOnTop a t b n +
      if (t.literals[n]?.any fun l => b.isSeen l.atom && a.levelOf l.atom == some t.level) then 1 else 0

theorem seenOnTop_pos_iff : 0 < seenOnTop a t b n ↔
    ∃ p l, p < n ∧ t.literals[p]? = some l ∧ b.isSeen l.atom = true ∧ a.levelOf l.atom = some t.level := by
  induction n with
  | zero => simp [seenOnTop]
  | succ n ih =>
    rw [seenOnTop, Nat.add_pos_iff_pos_or_pos, ih]
    constructor
    · rintro (⟨p, l, hp, hl⟩ | hn)
      · exact ⟨p, l, by omega, hl⟩
      · split at hn
        · rename_i hany
          rw [Option.any_eq_true] at hany
          obtain ⟨l, hl, hs⟩ := hany
          rw [Bool.and_eq_true, beq_iff_eq] at hs
          exact ⟨n, l, by omega, hl, hs⟩
        · omega
    · rintro ⟨p, l, hp, hl, hs⟩
      rcases Nat.lt_succ_iff_lt_or_eq.mp hp with hp | rfl
      · exact Or.inl ⟨p, l, hp, hl, hs⟩
      · right
        rw [if_pos]
        · exact Nat.one_pos
        · rw [Option.any_eq_true]
          exact ⟨l, hl, by simpa using hs⟩

/-- Only the marks count. -/
theorem seenOnTop_congr (h : ∀ x, b.isSeen x = b'.isSeen x) : seenOnTop a t b n = seenOnTop a t b' n := by
  induction n with
  | zero => rfl
  | succ n ih => simp only [seenOnTop, ih, h]

/-- The last marked position counts, if it is of the top level, and no position after it does. -/
theorem seenOnTop_last (hi : i < n) (hl : t.literals[i]? = some l) (hs : b.isSeen l.atom = true)
    (ht : a.levelOf l.atom = some t.level)
    (hafter : ∀ p k, i < p → p < n → t.literals[p]? = some k → b.isSeen k.atom = false) :
    seenOnTop a t b n = seenOnTop a t b i + 1 := by
  induction n with
  | zero => omega
  | succ n ih =>
    rw [seenOnTop]
    rcases Nat.lt_succ_iff_lt_or_eq.mp hi with hi | rfl
    · rw [ih hi fun p k h1 h2 => hafter p k h1 (by omega), if_neg]
      rw [Bool.not_eq_true, Option.any_eq_false]
      intro k hk
      simp [hafter n k hi (Nat.lt_succ_self n) hk]
    · rw [if_pos]
      rw [hl, Option.any_some, hs, ht]
      simp

/-- A new mark counts if it is that of an atom of the top level with a position below `n`. -/
theorem seenOnTop_mark (h : Agrees a t) (hx : x < b.seen.size) (hs : b.isSeen x = false) (hp : t.literals[p]? = some k)
    (hk : k.atom = x) (n : Nat) :
    seenOnTop a t (b.mark x) n = seenOnTop a t b n + if p < n ∧ a.levelOf x = some t.level then 1 else 0 := by
  induction n with
  | zero => simp [seenOnTop]
  | succ n ih =>
    rw [seenOnTop, seenOnTop, ih]
    cases hl : t.literals[n]? with
    | none =>
      have h1 := (Array.getElem?_eq_some_iff.mp hp).1
      have h2 := Array.getElem?_eq_none_iff.mp hl
      have hiff : p < n + 1 ↔ p < n := by omega
      simp [hiff]
    | some l =>
      simp only [Option.any_some, isSeen_mark hx]
      by_cases hlx : l.atom = x
      · have hpn : p = n := h.position_inj hp hl (hk.trans hlx.symm)
        subst hpn
        simp [hlx, hs]
      · have hne : p ≠ n := fun hpn => hlx (by rw [hpn, hl] at hp; cases hp; exact hk)
        have hiff : p < n + 1 ↔ p < n := by omega
        simp only [if_neg hlx, hiff]
        omega

/-- A position without a mark is passed. -/
theorem unseen_succ {trail : Array Literal} (h : ∀ p l, i < p → p < n → trail[p]? = some l → b.isSeen l.atom = false)
    (hn : ∀ l, trail[n]? = some l → b.isSeen l.atom = false) :
    ∀ p l, i < p → p < n + 1 → trail[p]? = some l → b.isSeen l.atom = false := by
  intro p l hip hpn hp
  rcases Nat.lt_succ_iff_lt_or_eq.mp hpn with hpn | rfl
  · exact h p l hip hpn hp
  · exact hn l hp

theorem lastSeen_ok {trail : Array Literal} (h : b.lastSeen trail n = .ok i) :
    i < n ∧ (∃ l, trail[i]? = some l ∧ b.isSeen l.atom = true) ∧
      ∀ p l, i < p → p < n → trail[p]? = some l → b.isSeen l.atom = false := by
  fun_induction lastSeen b trail n with
  | case1 | case2 | case3 => cases h
  | case4 n l hl hs =>
    cases h
    exact ⟨Nat.lt_succ_self _, ⟨l, hl, by rw [isSeen, hs]; rfl⟩, fun p l h1 h2 => by omega⟩
  | case5 n k hk hs ih =>
    obtain ⟨hi, hl, hafter⟩ := ih h
    refine ⟨Nat.lt_succ_of_lt hi, hl, unseen_succ hafter fun l hl => ?_⟩
    obtain rfl := Option.some.inj (hk.symm.trans hl)
    rw [isSeen, hs]
    rfl

/-- Down to a position that has been seen, the last one is found if all atoms on the way are known. -/
theorem exists_lastSeen {trail : Array Literal} (hn : n ≤ trail.size)
    (hk : ∀ p l, p < n → trail[p]? = some l → l.atom < b.seen.size) (hp : p < n) (hl : trail[p]? = some l)
    (hs : b.isSeen l.atom = true) : ∃ i, b.lastSeen trail n = .ok i := by
  fun_induction lastSeen b trail n with
  | case1 => omega
  | case2 n hnone =>
    have := Array.getElem?_eq_none_iff.mp hnone
    omega
  | case3 n m hm hs' =>
    have := hk n m (Nat.lt_succ_self n) hm
    rw [Array.getElem?_eq_getElem this] at hs'
    cases hs'
  | case4 n => exact ⟨n, rfl⟩
  | case5 n m hm hs' ih =>
    refine ih (by omega) (fun q m hq => hk q m (by omega)) (Nat.lt_of_le_of_ne (Nat.le_of_lt_succ hp) ?_)
    rintro rfl
    obtain rfl := Option.some.inj (hm.symm.trans hl)
    rw [isSeen, hs'] at hs
    cases hs

/-! ## Clauses that are noted -/

/-- The marks are those of atoms of the top level and of the literals noted for lower levels. -/
structure Noted (a : AtomTable) (t : Trail) (b : Resolution) : Prop extends Clean b where
  size : b.seen.size = a.size
  below : ∀ {l : Literal}, l ∈ b.lower → t.Lists (-l) ∧ b.isSeen l.atom = true ∧
    ∃ n, a.levelOf l.atom = some (n + 1) ∧ n + 1 ≠ t.level
  nodup : (b.lower.toList.map (·.atom)).Nodup
  seen : ∀ {p n : Nat} {k : Literal}, t.literals[p]? = some k → b.isSeen k.atom = true → a.levelOf k.atom = some n →
    n = t.level ∨ -k ∈ b.lower

variable {b : Resolution}

theorem Noted.clean_mark (h : Noted a t b) (hk : l.atom < a.size) : (b.mark l.atom).Clean where
  listed {x} hx := by
    rw [isSeen_mark (by rw [h.size]; exact hk)] at hx
    split at hx
    · rename_i heq
      rw [heq]
      exact Array.mem_push_self
    · exact Array.mem_push_of_mem _ (h.listed hx)
  marked {x} hx := by
    simp only [mark, Array.size_setIfInBounds]
    rcases Array.mem_push.mp hx with hx | rfl
    · exact h.toClean.marked hx
    · rw [h.size]
      exact hk

/-- An atom of the top level is marked. -/
theorem Noted.top (h : Noted a t b) (ha : Agrees a t) (hp : t.literals[p]? = some (-l))
    (hl : a.levelOf l.atom = some t.level) : Noted a t (b.mark l.atom) := by
  have hk : l.atom < a.size := ha.lt_size_neg hp
  have hseen := fun y => isSeen_mark (b := b) (by rw [h.size]; exact hk) y
  refine ⟨h.clean_mark hk, by simpa [mark] using h.size, fun {m} hm => ?_, h.nodup, fun {q n m} hq hs hn => ?_⟩
  · obtain ⟨h1, h2, h3⟩ := h.below hm
    refine ⟨h1, ?_, h3⟩
    rw [hseen, h2]
    split <;> rfl
  · rw [hseen] at hs
    split at hs
    · rename_i heq
      rw [heq, hl] at hn
      exact Or.inl (Option.some.inj hn).symm
    · exact h.seen hq hs hn

/-- An atom of a lower level is marked, and its literal is noted. -/
theorem Noted.lower (h : Noted a t b) (ha : Agrees a t) (hs : b.isSeen l.atom = false) (hp : t.literals[p]? = some (-l))
    (hl : a.levelOf l.atom = some (n + 1)) (hn : n + 1 ≠ t.level) :
    Noted a t { b.mark l.atom with lower := (b.mark l.atom).lower.push l } := by
  have hk : l.atom < a.size := ha.lt_size_neg hp
  have hseen := fun y => isSeen_mark (b := b) (by rw [h.size]; exact hk) y
  have hmark : ∀ y, Resolution.isSeen { b.mark l.atom with lower := (b.mark l.atom).lower.push l } y =
      if y = l.atom then true else b.isSeen y := hseen
  refine ⟨⟨(h.clean_mark hk).listed, (h.clean_mark hk).marked⟩, by simpa [mark] using h.size, fun {m} hm => ?_, ?_,
    fun {q n' m} hq hs' hn' => ?_⟩
  · rw [hmark]
    rcases Array.mem_push.mp hm with hm | rfl
    · obtain ⟨h1, h2, h3⟩ := h.below hm
      refine ⟨h1, ?_, h3⟩
      rw [h2]
      split <;> rfl
    · exact ⟨⟨p, hp⟩, if_pos rfl, n, hl, hn⟩
  · simp only [mark, Array.toList_push, List.map_append, List.map_cons, List.map_nil]
    refine List.nodup_append.mpr ⟨h.nodup, by simp, fun x hx y hy => ?_⟩
    obtain ⟨m, hm, rfl⟩ := List.mem_map.mp hx
    rw [List.mem_singleton] at hy
    rintro heq
    have := (h.below (Array.mem_toList_iff.mp hm)).2.1
    rw [heq, hy, hs] at this
    cases this
  · rw [hmark] at hs'
    split at hs'
    · rename_i heq
      -- the position of the atom is that of the negation of the literal
      have hpq : q = p := ha.position_inj hq hp heq
      rw [hpq, hp] at hq
      rw [← Option.some.inj hq, Literal.neg_neg]
      exact Or.inr Array.mem_push_self
    · exact (h.seen hq hs' hn').imp_right (Array.mem_push_of_mem _)

/-- Noting a clause marks all of its atoms but those of level zero, and counts the new ones of the top level below a
position. The literals must be false below it, or marked already. -/
theorem note_spec (ha : Agrees a t) (h : Noted a t b) (index : Nat) (c : Clause)
    (hc : ∀ l ∈ c, (∃ p : Nat, p < index ∧ t.literals[p]? = some (-l)) ∨ b.isSeen l.atom = true) :
    ∃ b', note a t.level c (seenOnTop a t b index) b = (.ok (seenOnTop a t b' index), b') ∧ Noted a t b' ∧
      (∀ x, b.isSeen x = true → b'.isSeen x = true) ∧ (∀ l ∈ b.lower, l ∈ b'.lower) ∧
      ∀ l ∈ c, b'.isSeen l.atom = true ∨ a.levelOf l.atom = some 0 := by
  induction c generalizing b with
  | nil => exact ⟨b, rfl, h, fun _ h => h, fun _ h => h, by simp⟩
  | cons l c ih =>
    -- what remains to be shown after a buffer `b₁` that has noted the first literal
    have hnext : ∀ b₁, Noted a t b₁ → (∀ x, b.isSeen x = true → b₁.isSeen x = true) → (∀ l ∈ b.lower, l ∈ b₁.lower) →
        (b₁.isSeen l.atom = true ∨ a.levelOf l.atom = some 0) →
        ∃ b', note a t.level c (seenOnTop a t b₁ index) b₁ = (.ok (seenOnTop a t b' index), b') ∧ Noted a t b' ∧
          (∀ x, b.isSeen x = true → b'.isSeen x = true) ∧ (∀ l ∈ b.lower, l ∈ b'.lower) ∧
          ∀ m ∈ l :: c, b'.isSeen m.atom = true ∨ a.levelOf m.atom = some 0 := by
      intro b₁ h1 hsub hlow hfirst
      obtain ⟨b', he, hb', hsub', hlow', hrest⟩ :=
        ih h1 fun m hm => (hc m (List.mem_cons_of_mem l hm)).imp_right (hsub _)
      refine ⟨b', he, hb', fun x hx => hsub' x (hsub x hx), fun m hm => hlow' m (hlow m hm), fun m hm => ?_⟩
      rcases List.mem_cons.mp hm with rfl | hm
      · exact hfirst.imp_left (hsub' _)
      · exact hrest m hm
    by_cases hs : b.isSeen l.atom = true
    · simp only [note, getElem?_seen (lt_size_of_isSeen hs), hs]
      exact hnext b h (fun _ h => h) (fun _ h => h) (Or.inl hs)
    · obtain ⟨p, hp, hpl⟩ := (hc l List.mem_cons_self).resolve_right hs
      have hlt : l.atom < a.size := ha.lt_size_neg hpl
      have hs : b.isSeen l.atom = false := by simpa using hs
      have hx : l.atom < b.seen.size := by rw [h.size]; exact hlt
      have hseen := isSeen_mark hx
      have hsub : ∀ x, b.isSeen x = true → (b.mark l.atom).isSeen x = true := fun x hx => by
        rw [hseen, hx]
        split <;> rfl
      have hself : (b.mark l.atom).isSeen l.atom = true := by rw [hseen, if_pos rfl]
      have hcount := seenOnTop_mark ha hx hs hpl rfl index
      obtain ⟨n, hn, -⟩ := ha.hasLevel hpl
      rw [Literal.atom_neg] at hn
      simp only [note, getElem?_seen hx, hs, hn]
      cases n with
      | zero => exact hnext b h (fun _ h => h) (fun _ h => h) (Or.inr hn)
      | succ n =>
        simp only
        split
        · rename_i htop
          rw [htop] at hn
          rw [if_pos ⟨hp, hn⟩] at hcount
          rw [← hcount]
          exact hnext _ (h.top ha hpl hn) hsub (fun _ h => h) (Or.inl hself)
        · rename_i htop
          rw [if_neg (by rw [hn]; simp [htop])] at hcount
          have hsame : seenOnTop a t { b.mark l.atom with lower := (b.mark l.atom).lower.push l } index =
              seenOnTop a t b index := by
            rw [← Nat.add_zero (seenOnTop a t b index), ← hcount]
            exact seenOnTop_congr fun _ => rfl
          rw [← hsame]
          exact hnext _ (h.lower ha hs hpl hn htop) hsub (fun m hm => Array.mem_push_of_mem _ hm) (Or.inl hself)

/-- Noting a clause marks its atoms that are not of level zero, and no others. -/
theorem isSeen_note {level count count' : Nat} {c : Clause} (h : note a level c count b = (.ok count', b')) :
    b'.isSeen x = true ↔ b.isSeen x = true ∨ ∃ l ∈ c, l.atom = x ∧ a.levelOf x ≠ some 0 := by
  induction c generalizing b count with
  | nil =>
    obtain ⟨-, rfl⟩ := Prod.mk.inj h
    simp
  | cons l c ih =>
    -- what remains is noted from a buffer that has the same marks, but for that of the first literal
    have hnext : ∀ (b₁ : Resolution) (n : Nat), note a level c n b₁ = (.ok count', b') →
        (b₁.isSeen x = true ↔ b.isSeen x = true ∨ l.atom = x ∧ a.levelOf x ≠ some 0) →
        (b'.isSeen x = true ↔ b.isSeen x = true ∨ ∃ m ∈ l :: c, m.atom = x ∧ a.levelOf x ≠ some 0) := by
      intro b₁ n hnote hfirst
      rw [ih hnote, hfirst, List.exists_mem_cons_iff, or_assoc]
    unfold note at h
    cases hseen : b.seen[l.atom]? with
    | none =>
      rw [hseen] at h
      cases (Prod.mk.inj h).1
    | some marked =>
      rw [hseen] at h
      have hs : b.isSeen l.atom = marked := by rw [isSeen, hseen, Option.getD_some]
      have hlt := (Array.getElem?_eq_some_iff.mp hseen).1
      cases marked with
      | true =>
        refine hnext b count h ⟨Or.inl, ?_⟩
        rintro (hx | ⟨rfl, -⟩)
        · exact hx
        · exact hs
      | false =>
        cases hlevel : a.levelOf l.atom with
        | none =>
          rw [hlevel] at h
          cases (Prod.mk.inj h).1
        | some n =>
          rw [hlevel] at h
          cases n with
          | zero =>
            refine hnext b count h ⟨Or.inl, ?_⟩
            rintro (hx | ⟨rfl, hne⟩)
            · exact hx
            · exact absurd hlevel hne
          | succ n =>
            have hmark : (b.mark l.atom).isSeen x = true ↔ b.isSeen x = true ∨ l.atom = x ∧ a.levelOf x ≠ some 0 := by
              rw [isSeen_mark hlt]
              by_cases hx : x = l.atom
              · subst hx
                simp [hlevel]
              · simp [hx, Ne.symm hx]
            simp only at h
            split at h
            · exact hnext _ _ h hmark
            · exact hnext _ _ h hmark

/-! ## The walk down the trail -/

/-- The assignment makes a literal true that is noted for a lower level, or the negation of a marked literal of the top
level at a position below `n`. -/
def Covers (a : AtomTable) (t : Trail) (b : Resolution) (n : Nat) (σ : Assignment) : Prop :=
  (∃ l ∈ b.lower, l.TrueIn σ) ∨ ∃ p k, p < n ∧ t.literals[p]? = some k ∧ b.isSeen k.atom = true ∧
    a.levelOf k.atom = some t.level ∧ (-k).TrueIn σ

variable {F : List Clause} {s : Solver} {index : Nat} {c : Array Literal} {key : ClauseKey}

/-- After a clause is noted, what is noted is true where the clause is true in a literal that is false below a position,
or what was noted is true. -/
theorem covers_note (h : Consistent F s) {b' : Resolution} (hb' : Noted s.atoms s.trail b')
    (hseen : ∀ x, b.isSeen x = true → b'.isSeen x = true) (hlow : ∀ l ∈ b.lower, l ∈ b'.lower)
    (hall : ∀ l ∈ c, b'.isSeen l.atom = true ∨ s.atoms.levelOf l.atom = some 0) (hσ : Models σ F)
    (hc : Covers s.atoms s.trail b index σ ∨
      ∃ l ∈ c, (∃ p : Nat, p < index ∧ s.trail.literals[p]? = some (-l)) ∧ l.TrueIn σ) :
    Covers s.atoms s.trail b' index σ := by
  rcases hc with (⟨l, hl, ht⟩ | ⟨p, k, hp, hk, hs, hn, ht⟩) | ⟨l, hl, ⟨p, hp, hpl⟩, ht⟩
  · exact Or.inl ⟨l, hlow l hl, ht⟩
  · exact Or.inr ⟨p, k, hp, hk, hseen _ hs, hn, ht⟩
  · obtain ⟨n, hn, hlev⟩ := h.agrees.hasLevel hpl
    rcases hall l hl with hs | h0
    · rcases hb'.seen hpl hs hn with rfl | hm
      · exact Or.inr ⟨p, -l, hp, hpl, hs, hn, by rwa [Literal.neg_neg]⟩
      · rw [Literal.neg_neg] at hm
        exact Or.inl ⟨l, hm, ht⟩
    · -- a literal that is false at level zero is false in all models
      rw [Literal.atom_neg, h0] at hn
      cases hn
      obtain ⟨m, hm, hmt⟩ := h.entails_zero hpl hlev σ hσ
      rw [List.mem_singleton.mp hm] at hmt
      exact absurd ht (trueIn_neg.mp hmt)

/-- Positions after one of the top level belong to the top level. -/
theorem levelOf_top (ha : Agrees a t) (hp : t.literals[p]? = some k) (hk : a.levelOf k.atom = some t.level)
    (hi : t.literals[i]? = some l) (hpi : p ≤ i) : a.levelOf l.atom = some t.level := by
  have htop := ha.hasLevel_of hp hk
  obtain ⟨n, hn, hlev⟩ := ha.hasLevel hi
  have hi' : t.HasLevel i t.level :=
    Trail.hasLevel_top_iff.mpr fun hs => Nat.le_trans (Trail.hasLevel_top_iff.mp htop hs) hpi
  rw [hn, hlev.unique hi']

/-- A clause is to be noted: its literals are false below a position or marked, and it stands, with what is noted, for a
clause that the formula entails, with some literal of the top level. -/
structure Walking (F : List Clause) (s : Solver) (key : ClauseKey) (c : Array Literal) (b : Resolution) (index : Nat) :
    Prop where
  noted : Noted s.atoms s.trail b
  inside : index ≤ s.trail.literals.size
  find : s.clauses.find key = some c
  falsified : ∀ l ∈ c, (∃ p : Nat, p < index ∧ s.trail.literals[p]? = some (-l)) ∨ b.isSeen l.atom = true
  current : 0 < seenOnTop s.atoms s.trail b index ∨ ∃ l ∈ c, ∃ p : Nat, p < index ∧
    s.trail.literals[p]? = some (-l) ∧ s.atoms.levelOf l.atom = some s.trail.level
  covers : ∀ σ, Models σ F → Covers s.atoms s.trail b index σ ∨
    ∃ l ∈ c, (∃ p : Nat, p < index ∧ s.trail.literals[p]? = some (-l)) ∧ l.TrueIn σ

/-- What is noted stands for a clause that the formula entails, with some literal of the top level. -/
structure Gathered (F : List Clause) (s : Solver) (b : Resolution) (index : Nat) : Prop where
  noted : Noted s.atoms s.trail b
  inside : index ≤ s.trail.literals.size
  current : 0 < seenOnTop s.atoms s.trail b index
  covers : ∀ σ, Models σ F → Covers s.atoms s.trail b index σ

theorem Walking.note (hw : Walking F s key c b index) (h : Consistent F s) (hlevel : 0 < s.trail.level) :
    ∃ b', note s.atoms s.trail.level c.toList (seenOnTop s.atoms s.trail b index)
        { b with premises := b.premises.push key } = (.ok (seenOnTop s.atoms s.trail b' index), b') ∧
      Gathered F s b' index := by
  have hb : Noted s.atoms s.trail { b with premises := b.premises.push key } :=
    ⟨⟨hw.noted.listed, hw.noted.marked⟩, hw.noted.size, hw.noted.below, hw.noted.nodup, hw.noted.seen⟩
  have hcount : seenOnTop s.atoms s.trail { b with premises := b.premises.push key } index =
      seenOnTop s.atoms s.trail b index := seenOnTop_congr fun _ => rfl
  obtain ⟨b', hnote, hb', hseen, hlow, hall⟩ := note_spec h.agrees hb index c.toList
    fun l hl => hw.falsified l (Array.mem_toList_iff.mp hl)
  rw [hcount] at hnote
  have hall : ∀ l ∈ c, b'.isSeen l.atom = true ∨ s.atoms.levelOf l.atom = some 0 :=
    fun l hl => hall l (Array.mem_toList_iff.mpr hl)
  refine ⟨b', hnote, hb', hw.inside, ?_, fun σ hσ => covers_note h hb' hseen hlow hall hσ (hw.covers σ hσ)⟩
  rw [seenOnTop_pos_iff]
  rcases hw.current with h0 | ⟨l, hl, p, hp, hpl, hn⟩
  · obtain ⟨p, l, hp, hpl, hs, hn⟩ := seenOnTop_pos_iff.mp h0
    exact ⟨p, l, hp, hpl, hseen _ hs, hn⟩
  · refine ⟨p, -l, hp, hpl, (hall l hl).resolve_right fun h0 => ?_, hn⟩
    rw [hn] at h0
    have := Option.some.inj h0
    omega

theorem Gathered.exists_lastSeen (hg : Gathered F s b index) (h : Consistent F s) :
    ∃ i, b.lastSeen s.trail.literals index = .ok i := by
  obtain ⟨p, k, hp, hpk, hs, -⟩ := seenOnTop_pos_iff.mp hg.current
  refine Resolution.exists_lastSeen hg.inside (fun q l _ hl => ?_) hp hpk hs
  rw [hg.noted.size]
  exact h.agrees.tracks.lt_size hl

/-- The last marked position has a literal of the top level, and all else that is marked comes before it. -/
theorem Gathered.pivot (hg : Gathered F s b index) (h : Consistent F s)
    (hlast : b.lastSeen s.trail.literals index = .ok i) :
    ∃ pivot, s.trail.literals[i]? = some pivot ∧ b.isSeen pivot.atom = true ∧
      s.atoms.levelOf pivot.atom = some s.trail.level ∧
      seenOnTop s.atoms s.trail b index = seenOnTop s.atoms s.trail b i + 1 ∧
      ∀ σ, Models σ F → (-pivot).TrueIn σ ∨ Covers s.atoms s.trail b i σ := by
  obtain ⟨hi, ⟨pivot, hpivot, hpvs⟩, hafter⟩ := lastSeen_ok hlast
  obtain ⟨p, k, hp, hpk, hpseen, hptop⟩ := seenOnTop_pos_iff.mp hg.current
  have hpi : p ≤ i := by
    by_contra hlt
    rw [hafter p k (by omega) hp hpk] at hpseen
    cases hpseen
  have hlev := levelOf_top h.agrees hpk hptop hpivot hpi
  refine ⟨pivot, hpivot, hpvs, hlev, seenOnTop_last hi hpivot hpvs hlev hafter, fun σ hσ => ?_⟩
  rcases hg.covers σ hσ with hlow | ⟨q, m, hq, hm, hs, hn, ht⟩
  · exact Or.inr (Or.inl hlow)
  · rcases Nat.lt_trichotomy q i with hqi | rfl | hiq
    · exact Or.inr (Or.inr ⟨q, m, hqi, hm, hs, hn, ht⟩)
    · rw [hpivot] at hm
      cases hm
      exact Or.inl ht
    · rw [hafter q m hiq hq hm] at hs
      cases hs

/-- If other marked literals of the top level come before it, the last one is no decision, and
its reason is noted next. -/
theorem Gathered.next {pivot : Literal} (hg : Gathered F s b index) (h : Consistent F s)
    (hpivot : s.trail.literals[i]? = some pivot) (hseen : b.isSeen pivot.atom = true)
    (hcurrent : 0 < seenOnTop s.atoms s.trail b i)
    (hcovers : ∀ σ, Models σ F → (-pivot).TrueIn σ ∨ Covers s.atoms s.trail b i σ) :
    ∃ reason c, s.atoms.reasonOf pivot.atom = some reason ∧ Walking F s reason c b i := by
  obtain ⟨q, m, hq, hm, -, hmt⟩ := seenOnTop_pos_iff.mp hcurrent
  rcases h.justified hpivot with ⟨-, j, hj⟩ | ⟨reason, c, hreason, hfind, hf⟩
  · have := Trail.hasLevel_top_iff.mp (h.agrees.hasLevel_of hm hmt) hj
    omega
  · have hinside : i ≤ s.trail.literals.size := Nat.le_of_lt (Array.getElem?_eq_some_iff.mp hpivot).1
    refine ⟨reason, c, hreason, hg.noted, hinside, hfind, fun l hl => ?_, Or.inl hcurrent, fun σ hσ => ?_⟩
    · by_cases hlp : l = pivot
      · rw [hlp]
        exact Or.inr hseen
      · exact Or.inl (hf.others l hl hlp)
    · rcases hcovers σ hσ with hneg | hcov
      · obtain ⟨l, hl, ht⟩ := h.entailed hfind σ hσ
        rw [Array.mem_toList_iff] at hl
        have hlp : l ≠ pivot := fun heq => trueIn_neg.mp hneg (heq ▸ ht)
        exact Or.inr ⟨l, hl, hf.others l hl hlp, ht⟩
      · exact Or.inl hcov

/-- The buffer after a clause is noted, whatever was counted. -/
def Notes (s : Solver) (key : ClauseKey) (c : Array Literal) (b b' : Resolution) : Prop :=
  ∃ count count', note s.atoms s.trail.level c.toList count { b with premises := b.premises.push key } =
    (.ok count', b')

theorem Notes.isSeen_iff (h : Notes s key c b b') :
    b'.isSeen x = true ↔ b.isSeen x = true ∨ ∃ l ∈ c, l.atom = x ∧ s.atoms.levelOf x ≠ some 0 := by
  obtain ⟨count, count', hnote⟩ := h
  have hseen := isSeen_note (x := x) hnote
  simp only [Array.mem_toList_iff] at hseen
  exact hseen

/-- The walk goes from the last marked position to the one before it, as long as there is one of the top level. What
this step keeps, it keeps to the end, where the last marked position is the only one of the top level that is left. -/
theorem walk_induction (h : Consistent F s) (hlevel : 0 < s.trail.level) {P : Resolution → Nat → Prop}
    (hstep : ∀ {b b' : Resolution} {index i : Nat} {pivot : Literal} {reason : ClauseKey} {d : Array Literal},
      Gathered F s b index → P b index → b.lastSeen s.trail.literals index = .ok i →
      s.trail.literals[i]? = some pivot → 0 < seenOnTop s.atoms s.trail b i →
      s.atoms.reasonOf pivot.atom = some reason → s.clauses.find reason = some d → Notes s reason d b b' → P b' i)
    (hw : Walking F s key c b index) (hP : ∀ b', Notes s key c b b' → P b' index) :
    ∃ pivot b' index' i,
      walk s.clauses s.atoms s.trail key (seenOnTop s.atoms s.trail b index) index b = (.ok pivot, b') ∧
      Gathered F s b' index' ∧ P b' index' ∧ b'.lastSeen s.trail.literals index' = .ok i ∧
      s.trail.literals[i]? = some pivot ∧ seenOnTop s.atoms s.trail b' i = 0 := by
  induction index using Nat.strongRecOn generalizing key c b with
  | _ index ih =>
    obtain ⟨b', hnote, hg⟩ := hw.note h hlevel
    have hPb := hP b' ⟨_, _, hnote⟩
    obtain ⟨e, hget, rfl⟩ := ClauseStore.find_eq_some_iff.mp hw.find
    rw [walk, hget]
    simp only [StoredClause.clause, hnote]
    split
    · rename_i e hlast
      obtain ⟨i, hi⟩ := hg.exists_lastSeen h
      rw [hi] at hlast
      cases hlast
    · rename_i i hlast
      obtain ⟨pivot, hpivot, hseen, -, hsplit, hcovers⟩ := hg.pivot h hlast
      simp only [hpivot, Option.getD_some, hsplit]
      cases hrest : seenOnTop s.atoms s.trail b' i with
      | zero => exact ⟨pivot, b', index, i, rfl, hg, hPb, hlast, hpivot, hrest⟩
      | succ count =>
        obtain ⟨reason, d, hreason, hnext⟩ := hg.next h hpivot hseen (by omega) hcovers
        simp only [hreason]
        rw [← hrest]
        exact ih i (lastSeen_lt hlast) hnext fun b'' hb'' =>
          hstep hg hPb hlast hpivot (by omega) hreason hnext.find hb''

/-- The walk ends at a literal of the top level, the only one of this level in what is noted. -/
theorem walk_spec (hw : Walking F s key c b index) (h : Consistent F s) (hlevel : 0 < s.trail.level) :
    ∃ pivot b', walk s.clauses s.atoms s.trail key (seenOnTop s.atoms s.trail b index) index b = (.ok pivot, b') ∧
      Noted s.atoms s.trail b' ∧ (∃ i : Nat, s.trail.literals[i]? = some pivot) ∧
      s.atoms.levelOf pivot.atom = some s.trail.level ∧
      ∀ σ, Models σ F → (-pivot).TrueIn σ ∨ ∃ l ∈ b'.lower, l.TrueIn σ := by
  obtain ⟨pivot, b', index', i, hwalk, hg, -, hlast, hpivot, hzero⟩ :=
    walk_induction (P := fun _ _ => True) h hlevel (fun _ _ _ _ _ _ _ _ => trivial) hw fun _ _ => trivial
  obtain ⟨k, hk, -, hlev, -, hcovers⟩ := hg.pivot h hlast
  obtain rfl := Option.some.inj (hpivot.symm.trans hk)
  refine ⟨pivot, b', hwalk, hg.noted, ⟨i, hpivot⟩, hlev, fun σ hσ => (hcovers σ hσ).imp_right fun hcov => ?_⟩
  rcases hcov with hlow | ⟨q, m, hq, hm, hs, hn, -⟩
  · exact hlow
  · have : 0 < seenOnTop s.atoms s.trail b' i := seenOnTop_pos_iff.mpr ⟨q, m, hq, hm, hs, hn⟩
    omega

/-! ## The clause that asserts a literal -/

/-- The position found is the old one, or that of a literal of a higher level, the highest of the clause. -/
theorem highest_spec (a : AtomTable) (d : Clause) (i best level : Nat) :
    (highest a d i best level = best ∧ ∀ l ∈ d, (a.levelOf l.atom).getD 0 ≤ level) ∨
      ∃ j m, highest a d i best level = i + j ∧ d[j]? = some m ∧ level < (a.levelOf m.atom).getD 0 ∧
        ∀ l ∈ d, (a.levelOf l.atom).getD 0 ≤ (a.levelOf m.atom).getD 0 := by
  induction d generalizing i best level with
  | nil => exact Or.inl ⟨rfl, by simp⟩
  | cons l d ih =>
    rw [highest]
    simp only [List.forall_mem_cons]
    split
    · rename_i hlt
      rcases ih (i + 1) i ((a.levelOf l.atom).getD 0) with ⟨he, hc⟩ | ⟨j, m, he, hm, hgt, hc⟩
      · exact Or.inr ⟨0, l, he, rfl, hlt, Nat.le_refl _, hc⟩
      · exact Or.inr ⟨j + 1, m, by omega, by simpa using hm, by omega, by omega, hc⟩
    · rename_i hle
      rcases ih (i + 1) best level with ⟨he, hc⟩ | ⟨j, m, he, hm, hgt, hc⟩
      · exact Or.inl ⟨he, by omega, hc⟩
      · exact Or.inr ⟨j + 1, m, by omega, by simpa using hm, hgt, by omega, hc⟩

/-- A literal after the first one is swapped into second place. -/
theorem swap_second (first : Literal) {lower : Array Literal} {j : Nat} {m : Literal} (hm : lower[j]? = some m) :
    ∃ rest, ((#[first] ++ lower).swapIfInBounds 1 (1 + j)).toList = first :: rest ∧ rest.Perm lower.toList ∧
      rest[0]? = some m := by
  have hlt := (Array.getElem?_eq_some_iff.mp hm).1
  have hperm := Array.perm_iff_toList_perm.mp (swapIfInBounds_perm (#[first] ++ lower) 1 (1 + j))
  have h0 : ((#[first] ++ lower).swapIfInBounds 1 (1 + j)).toList[0]? = some first := by grind
  have h1 : ((#[first] ++ lower).swapIfInBounds 1 (1 + j)).toList[1]? = some m := by grind
  generalize ((#[first] ++ lower).swapIfInBounds 1 (1 + j)).toList = d at hperm h0 h1
  cases d with
  | nil => cases h0
  | cons k rest =>
    have hk : k = first := Option.some.inj h0
    rw [hk] at hperm
    exact ⟨rest, by rw [hk], by simpa using hperm, h1⟩

/-- The asserted literal comes first, and then a literal of the highest level of the others. -/
theorem asserting_spec (first : Literal) (lower : Array Literal)
    (hl : ∀ l ∈ lower, 0 < (a.levelOf l.atom).getD 0) :
    ∃ rest, asserting a first lower = .ok (first :: rest) ∧ rest.Perm lower.toList ∧
      ∀ m, rest[0]? = some m → ∀ l ∈ rest, (a.levelOf l.atom).getD 0 ≤ (a.levelOf m.atom).getD 0 := by
  unfold asserting
  simp only [Array.size_append, List.size_toArray, List.length_cons, List.length_nil]
  split
  · rename_i hsize
    obtain ⟨j, m, hj, hm, hmax⟩ : ∃ j m, highest a lower.toList 1 1 0 = 1 + j ∧ lower[j]? = some m ∧
        ∀ l ∈ lower.toList, (a.levelOf l.atom).getD 0 ≤ (a.levelOf m.atom).getD 0 := by
      rcases highest_spec a lower.toList 1 1 0 with ⟨-, hc⟩ | ⟨j, m, hj, hm, -, hc⟩
      · have h0 := hl lower[0] (Array.getElem_mem _)
        have := hc lower[0] (Array.mem_toList_iff.mpr (Array.getElem_mem _))
        omega
      · exact ⟨j, m, hj, by simpa using hm, hc⟩
    obtain ⟨rest, hrest, hperm, hfirst⟩ := swap_second first hm
    have hlt := (Array.getElem?_eq_some_iff.mp hm).1
    rw [hj, if_pos (by omega), hrest]
    refine ⟨rest, rfl, hperm, fun m' hm' l hl' => ?_⟩
    rw [← Option.some.inj (hfirst.symm.trans hm')]
    exact hmax l (hperm.mem_iff.mp hl')
  · rename_i hsize
    refine ⟨lower.toList, by simp, List.Perm.refl _, fun m hm l hl => ?_⟩
    -- there is one literal at most
    obtain ⟨i, hi⟩ := List.mem_iff_getElem?.mp hl
    have hlt : i < lower.toList.length := (List.getElem?_eq_some_iff.mp hi).1
    rw [Array.length_toList] at hlt
    have hzero : i = 0 := by omega
    rw [hzero, hm] at hi
    exact Nat.le_of_eq (by rw [Option.some.inj hi])

end Resolution

/-- A clause that was derived from a conflict: all false, one literal of the top level, and none of level zero. -/
structure Derived (F : List Clause) (s : Solver) (first : Literal) (rest : Clause) : Prop where
  entailed : Entails F (first :: rest)
  lists_first : s.trail.Lists (-first)
  level_first : s.atoms.levelOf first.atom = some s.trail.level
  lists_rest : ∀ l ∈ rest, s.trail.Lists (-l)
  level_rest : ∀ l ∈ rest, ∃ n, s.atoms.levelOf l.atom = some (n + 1) ∧ n + 1 < s.trail.level
  nodup : ((first :: rest).map (·.atom)).Nodup
  highest : ∀ m, rest[0]? = some m → ∀ l ∈ rest,
    (s.atoms.levelOf l.atom).getD 0 ≤ (s.atoms.levelOf m.atom).getD 0

/-- Resolution begins without marks, from a clause that is false and has a literal of the top level. -/
theorem Conflict.walking {F : List Clause} {s : Solver} {key : ClauseKey} {c : Array Literal} (h : Consistent F s)
    (hc : Conflict s key c) :
    Resolution.Walking F s key c (s.resolution.refresh s.atoms.size) s.trail.literals.size ∧
      Resolution.seenOnTop s.atoms s.trail (s.resolution.refresh s.atoms.size) s.trail.literals.size = 0 := by
  obtain ⟨hsize, hseen⟩ := Resolution.refresh_spec h.clean s.atoms.size
  have hb : Resolution.Noted s.atoms s.trail (s.resolution.refresh s.atoms.size) := by
    refine ⟨⟨fun {x} hx => ?_, by simp [Resolution.refresh]⟩, hsize, by simp [Resolution.refresh],
      by simp [Resolution.refresh], fun {p n k} _ hs => ?_⟩
    · rw [hseen] at hx
      cases hx
    · rw [hseen] at hs
      cases hs
  have hfalse : ∀ l ∈ c, ∃ p : Nat, p < s.trail.literals.size ∧ s.trail.literals[p]? = some (-l) := by
    intro l hl
    obtain ⟨p, hp⟩ := hc.falsified l hl
    exact ⟨p, (Array.getElem?_eq_some_iff.mp hp).1, hp⟩
  obtain ⟨l, hl, i, hi, hil⟩ := hc.current
  have htop : s.atoms.levelOf l.atom = some s.trail.level := by
    obtain ⟨n, hn, hlev⟩ := h.agrees.hasLevel hil
    rw [Literal.atom_neg] at hn
    rw [hn, hlev.unique (h.agrees.layered.hasLevel_waiting hi)]
  constructor
  · refine ⟨hb, Nat.le_refl _, hc.find, fun l hl => Or.inl (hfalse l hl),
      Or.inr ⟨l, hl, i, (Array.getElem?_eq_some_iff.mp hil).1, hil, htop⟩, fun σ hσ => ?_⟩
    obtain ⟨l, hl, ht⟩ := h.entailed hc.find σ hσ
    rw [Array.mem_toList_iff] at hl
    exact Or.inr ⟨l, hl, hfalse l hl, ht⟩
  · by_contra hpos
    obtain ⟨p, l, -, -, hs, -⟩ := Resolution.seenOnTop_pos_iff.mp (Nat.pos_of_ne_zero hpos)
    rw [hseen] at hs
    cases hs

/-- What the first clause brings about and the steps of the walk keep, holds where resolution ends. -/
theorem Conflict.resolve_induction {F : List Clause} {s : Solver} {key : ClauseKey} {c : Array Literal}
    (hc : Conflict s key c) (h : Consistent F s) (hlevel : 0 < s.trail.level) {P : Resolution → Nat → Prop}
    (hstep : ∀ {b b' : Resolution} {index i : Nat} {pivot : Literal} {reason : ClauseKey} {d : Array Literal},
      P b index → b.lastSeen s.trail.literals index = .ok i → s.trail.literals[i]? = some pivot →
      0 < Resolution.seenOnTop s.atoms s.trail b i → s.atoms.reasonOf pivot.atom = some reason →
      s.clauses.find reason = some d → Resolution.Notes s reason d b b' → P b' i)
    (hfirst : ∀ b, Resolution.Notes s key c (s.resolution.refresh s.atoms.size) b → P b s.trail.literals.size) :
    ∃ pivot rest b index i,
      s.resolution.resolve key s.clauses s.atoms s.trail = (.ok (-pivot :: rest), b) ∧ rest.Perm b.lower.toList ∧
      Resolution.Gathered F s b index ∧ P b index ∧ b.lastSeen s.trail.literals index = .ok i ∧
      s.trail.literals[i]? = some pivot ∧ Resolution.seenOnTop s.atoms s.trail b i = 0 := by
  obtain ⟨hwalking, hcount⟩ := hc.walking h
  obtain ⟨pivot, b, index, i, hwalk, hgathered, hP, hlast, hpivot, hzero⟩ :=
    Resolution.walk_induction h hlevel (fun _ hb => hstep hb) hwalking hfirst
  rw [hcount] at hwalk
  obtain ⟨rest, hrest, hperm, -⟩ := Resolution.asserting_spec (a := s.atoms) (-pivot) b.lower fun l hl => by
    obtain ⟨-, -, n, hn, -⟩ := hgathered.noted.below hl
    rw [hn]
    exact Nat.succ_pos n
  refine ⟨pivot, rest, b, index, i, ?_, hperm, hgathered, hP, hlast, hpivot, hzero⟩
  rw [Resolution.resolve, if_pos h.clean.covers_atoms, hwalk, ← hrest]

/-- Resolution from a clause that is false, with a literal of the top level. -/
theorem resolve_spec {F : List Clause} {s : Solver} {key : ClauseKey} {c : Array Literal} (h : Consistent F s)
    (hlevel : 0 < s.trail.level) (hc : Conflict s key c) :
    ∃ first rest b, s.resolution.resolve key s.clauses s.atoms s.trail = (.ok (first :: rest), b) ∧
      Derived F s first rest ∧ b.Clean ∧ b.seen.size = s.atoms.size := by
  obtain ⟨hwalking, hzero⟩ := hc.walking h
  obtain ⟨pivot, b, hwalk, hnoted, hpivot, hplev, hent⟩ := Resolution.walk_spec hwalking h hlevel
  rw [hzero] at hwalk
  have hlow : ∀ l ∈ b.lower, ∃ n, s.atoms.levelOf l.atom = some (n + 1) ∧ n + 1 < s.trail.level := by
    intro l hl
    obtain ⟨⟨p, hp⟩, -, n, hn, hne⟩ := hnoted.below hl
    have := (h.agrees.hasLevel_of hp hn).1
    exact ⟨n, hn, by omega⟩
  obtain ⟨rest, hrest, hperm, hmax⟩ := Resolution.asserting_spec (a := s.atoms) (-pivot) b.lower
    fun l hl => by
      obtain ⟨n, hn, -⟩ := hlow l hl
      rw [hn]
      exact Nat.succ_pos n
  have hmem : ∀ l, l ∈ rest ↔ l ∈ b.lower := fun l => by rw [hperm.mem_iff, Array.mem_toList_iff]
  refine ⟨-pivot, rest, b, ?_,
    ⟨fun σ hσ => ?_, ?_, hplev, fun l hl => ?_, fun l hl => hlow l ((hmem l).mp hl), ?_, hmax⟩,
    hnoted.toClean, hnoted.size⟩
  · rw [Resolution.resolve, if_pos h.clean.covers_atoms, hwalk, ← hrest]
  · rcases hent σ hσ with ht | ⟨l, hl, ht⟩
    · exact ⟨-pivot, List.mem_cons_self, ht⟩
    · exact ⟨l, List.mem_cons_of_mem _ ((hmem l).mpr hl), ht⟩
  · rw [Literal.neg_neg]
    exact hpivot
  · exact (hnoted.below ((hmem l).mp hl)).1
  · rw [List.map_cons, List.nodup_cons]
    refine ⟨fun hm => ?_, (hperm.map _).nodup_iff.mpr hnoted.nodup⟩
    obtain ⟨l, hl, heq⟩ := List.mem_map.mp hm
    obtain ⟨n, hn, hlt⟩ := hlow l ((hmem l).mp hl)
    rw [heq, Literal.atom_neg, hplev] at hn
    have := Option.some.inj hn
    omega

end ClauseLearning
