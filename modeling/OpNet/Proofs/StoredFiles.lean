import OpNet.Store

/-!
Writing a file. Main statement: a write that succeeds changes the entry at one place, to which the
path leads before and after, every path that leads somewhere still leads there, and the bytes are
read back.
-/
namespace OpNet.Store

section
variable {s after : Store} {place other target : Place} {entry : Entry} {bytes : Pack.Bytes}
  {path : String}

theorem lookupRemoved (apart : other ≠ place) (entries : List (Place × Entry)) :
    (entries.filter fun e => e.1 ≠ place).lookup other = entries.lookup other := by
  induction entries with
  | nil => rfl
  | cons e rest ih =>
    obtain ⟨here, entry⟩ := e
    by_cases same : here = place
    · subst same
      simpa [List.lookup_cons, beq_eq_false_iff_ne.mpr apart] using ih
    · rw [List.filter_cons_of_pos (by simpa using same), List.lookup_cons, List.lookup_cons, ih]

theorem entryElsewhere (apart : other ≠ place) :
    Store.entry? (s.put place entry) other = s.entry? other := by
  unfold Store.entry? put
  simp only [List.lookup_cons, beq_eq_false_iff_ne.mpr apart, lookupRemoved apart]

theorem entryThere (free : s.entry? place ≠ some .directory) :
    Store.entry? (s.put place entry) place = some entry := by
  have low : place.isTop = false := Bool.eq_false_iff.mpr fun top => free <| by
    unfold Store.entry?
    rw [if_pos top]
  unfold Store.entry? put
  simp [low]

theorem walkElsewhere (free : s.entry? place ≠ some .directory) {start : Place}
    {names : List String} (led : s.walk start names = .ok target) :
    (s.put place entry).walk start names = .ok target := by
  induction names generalizing start with
  | nil => exact led
  | cons name rest ih =>
    simp only [walk] at led
    split at led
    · cases led
    · cases led
    · rename_i here
      have apart : start ≠ place := fun same => free (same ▸ here)
      simp only [walk, entryElsewhere apart, here]
      split
      · rename_i dot
        exact ih (by simpa [dot] using led)
      · rename_i dot
        split
        · rename_i up
          exact ih (by simpa [up] using led)
        · rename_i up
          exact ih (by simpa [dot, up] using led)

theorem resolveElsewhere (free : s.entry? place ≠ some .directory)
    (led : s.resolve path = .ok target) : (s.put place entry).resolve path = .ok target := by
  unfold resolve at led ⊢
  split at led
  · cases led
  split at led
  · cases led
  split at led
  · cases led
  rename_i clean some short
  rw [if_neg clean, if_neg some, if_neg short]
  exact walkElsewhere free led

structure Written (before : Store) (path : String) (bytes : Pack.Bytes) (after : Store) :
    Prop where
  file : ∃ place, before.resolve path = .ok place ∧ after.entry? place = some (.file bytes) ∧
    ∀ other, other ≠ place → after.entry? other = before.entry? other
  paths : ∀ other target, before.resolve other = .ok target → after.resolve other = .ok target
  read : after.read path = .ok bytes

theorem writeOk (done : s.write path bytes = .ok after) : ∃ place, s.resolve path = .ok place ∧
    s.entry? place ≠ some .directory ∧ meansDirectory path = false ∧
      after = s.put place (.file bytes) := by
  unfold write at done
  split at done
  · cases done
  · rename_i place led
    split at done
    · cases done
    · rename_i plain
      simp only [Bool.or_eq_true, decide_eq_true_eq, not_or, Bool.not_eq_true] at plain
      split at done
      · cases done
        exact ⟨place, led, plain.1, plain.2, rfl⟩
      · cases done

theorem written (done : s.write path bytes = .ok after) : Written s path bytes after := by
  obtain ⟨place, led, free, named, rfl⟩ := writeOk done
  have there : Store.entry? (s.put place (.file bytes)) place = some (.file bytes) :=
    entryThere free
  have still : (s.put place (.file bytes)).resolve path = .ok place := resolveElsewhere free led
  exact {
    file := ⟨place, led, there, fun other apart => entryElsewhere apart⟩
    paths := fun other target led => resolveElsewhere free led
    read := by simp [Store.read, still, there, named] }

end

end OpNet.Store
