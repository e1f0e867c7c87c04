import ClauseLearning.Proofs.Soundness.Resolution

/-!
# A buffer that is used again

Resolution leaves its marks in the buffer, wherever it stops, and the next one clears the marks of the listed atoms only
(`Resolution.refresh`). That is enough where the listed atoms are the marked ones (`Resolution.Tidy`), and this holds
after each literal that is noted (`Tidy.note`), so wherever a walk down the trail stops (`Tidy.walk`), for any clauses,
table of atoms and trail, whether they fit together or not. Such a buffer is refreshed to what a new one is refreshed to
(`Clean.refresh_eq`). So it does not matter what a buffer was used for before (`resolve_usedFor`).
-/

namespace ClauseLearning

namespace Resolution

variable {a : AtomTable} {t : Trail} {store : ClauseStore} {key : ClauseKey} {b b' : Resolution} {c : Clause}
  {level count index x : Nat}

/-! ## Marks and listed atoms -/

/-- The listed atoms are those that are marked, and none is listed twice. -/
structure Tidy (b : Resolution) : Prop where
  nodup : b.atoms.toList.Nodup
  mem_iff : ∀ x, x ∈ b.atoms ↔ b.isSeen x = true

theorem Tidy.clean (h : b.Tidy) : b.Clean where
  listed hx := (h.mem_iff _).mpr hx
  marked hx := lt_size_of_isSeen ((h.mem_iff _).mp hx)

/-- Only the marks and the listed atoms matter. -/
theorem Tidy.of_marks (h : b.Tidy) (hs : b'.seen = b.seen) (ha : b'.atoms = b.atoms) : b'.Tidy where
  nodup := by rw [ha]; exact h.nodup
  mem_iff x := by rw [ha, h.mem_iff, isSeen, isSeen, hs]

/-- An atom that has not been seen is marked and listed. -/
theorem Tidy.mark (h : b.Tidy) (hx : b.seen[x]? = some false) : (b.mark x).Tidy where
  nodup := by
    have hnot : x ∉ b.atoms.toList := by
      rw [Array.mem_toList_iff, h.mem_iff, isSeen, hx]
      simp
    rw [Resolution.mark, Array.toList_push]
    exact List.nodup_append.mpr ⟨h.nodup, List.nodup_singleton x, fun y hy z hz heq => by
      rw [heq, List.mem_singleton.mp hz] at hy
      exact hnot hy⟩
  mem_iff y := by
    rw [isSeen_mark (Array.getElem?_eq_some_iff.mp hx).1, Resolution.mark, Array.mem_push, h.mem_iff]
    by_cases hy : y = x <;> simp [hy]

theorem tidy_empty : ({} : Resolution).Tidy := ⟨List.nodup_nil, fun x => by simp [isSeen]⟩

/-! ## What a resolution leaves behind -/

/-- A clause may be noted up to any of its literals. -/
theorem Tidy.note (h : b.Tidy) : (note a level c count b).2.Tidy := by
  fun_induction Resolution.note a level c count b with
  | case1 | case2 | case4 => exact h
  | case3 | case5 => rename_i ih; exact ih h
  | case6 l c count b hseen => rename_i ih; exact ih (h.mark hseen)
  | case7 l c count b hseen => rename_i ih; exact ih ((h.mark hseen).of_marks rfl rfl)

theorem Tidy.noted {result : Except Error Nat} (h : b.Tidy)
    (hnote : Resolution.note a level c count { b with premises := b.premises.push key } = (result, b')) : b'.Tidy := by
  have hb : ({ b with premises := b.premises.push key } : Resolution).Tidy := h.of_marks rfl rfl
  have hb' : (Resolution.note a level c count { b with premises := b.premises.push key }).2.Tidy := hb.note
  rwa [hnote] at hb'

/-- The walk may stop before or after any clause that it comes to. -/
theorem Tidy.walk (h : b.Tidy) : (walk store a t key count index b).2.Tidy := by
  fun_induction Resolution.walk store a t key count index b with
  | case1 => exact h
  | case2 | case4 | case5 | case6 => rename_i hnote; exact h.noted hnote
  | case3 => rename_i hnote _ _; exact h.noted hnote
  | case7 => rename_i hnote ih; exact ih (h.noted hnote)

/-- All marks are cleared, and there is one for each atom. -/
theorem Clean.refresh_eq (h : b.Clean) (n : Nat) : b.refresh n = { seen := Array.replicate n false } := by
  obtain ⟨hsize, hseen⟩ := refresh_spec h n
  have hmarks : (b.refresh n).seen = Array.replicate n false := by
    refine Array.ext (by rw [hsize, Array.size_replicate]) fun x hx _ => ?_
    rw [Array.getElem_replicate, ← hseen x, isSeen, Array.getElem?_eq_getElem hx, Option.getD_some]
  rw [← hmarks]
  rfl

theorem tidy_refreshed (n : Nat) : ({ seen := Array.replicate n false } : Resolution).Tidy where
  nodup := List.nodup_nil
  mem_iff x := by
    rw [isSeen, Array.getElem?_replicate]
    split <;> simp

/-- Whatever a resolution comes to, it leaves a tidy buffer. -/
theorem Clean.tidy_resolve (h : b.Clean) : (b.resolve key store a t).2.Tidy := by
  have hwalk : (Resolution.walk store a t key 0 t.literals.size (b.refresh a.size)).2.Tidy := by
    rw [h.refresh_eq]
    exact (tidy_refreshed a.size).walk
  rw [Resolution.resolve, if_pos h.covers_atoms]
  split <;> rename_i hr <;> rwa [hr] at hwalk

/-! ## Tasks one after another -/

/-- What a resolution is asked for: the key of a clause, and the clauses, atoms and trail to work on. -/
structure Task where
  key : ClauseKey
  clauses : ClauseStore
  atoms : AtomTable
  trail : Trail

/-- The buffer after a resolution for each of the tasks, in order, whether it gave a clause or an error. -/
def usedFor (b : Resolution) (tasks : List Task) : Resolution :=
  tasks.foldl (fun b task => (b.resolve task.key task.clauses task.atoms task.trail).2) b

theorem Tidy.usedFor (h : b.Tidy) (tasks : List Task) : (b.usedFor tasks).Tidy := by
  induction tasks generalizing b with
  | nil => exact h
  | cons task tasks ih => exact ih h.clean.tidy_resolve

/-- After any tasks, a resolution gives the clause or error that it gives on a new buffer, and leaves the same atoms and
premises there. All that it has to clear before are marks that the buffer has. -/
theorem resolve_usedFor (tasks : List Task) (key : ClauseKey)
    (clauses : ClauseStore) (atoms : AtomTable) (trail : Trail) :
    (usedFor {} tasks).resolve key clauses atoms trail = ({} : Resolution).resolve key clauses atoms trail ∧
      ∀ x ∈ (usedFor {} tasks).atoms, x < (usedFor {} tasks).seen.size := by
  have hused := tidy_empty.usedFor tasks
  refine ⟨?_, fun x hx => hused.clean.marked hx⟩
  rw [resolve, resolve, if_pos hused.clean.covers_atoms, if_pos tidy_empty.clean.covers_atoms, hused.clean.refresh_eq,
    tidy_empty.clean.refresh_eq]

/-- A resolution that stops at a literal without a value leaves a mark behind. -/
example :
    let atoms := (((default : AtomTable).grow false).grow false).value ⟨1, false⟩ 1 none
    let clauses := (default : ClauseStore).place (.givenBinary 0) [⟨1, true⟩, ⟨2, true⟩]
    (usedFor {} [⟨.givenBinary 0, clauses, atoms, {}⟩]).seen = #[false, true, false] := by
  decide +kernel

end Resolution

end ClauseLearning
