import Thompson.Files
import Thompson.Proofs.Basic

/-!
# A written file is read back

Writing a file changes what is at its own place and nothing else. The
place was no folder before, so no way to it leads through it, and the
path still leads there afterwards.
-/

namespace Thompson

namespace Directory

variable {d d' : Directory} {place : List String} {path text : String}

/-- A path falls apart at its slashes. -/
theorem steps_eq (path : String) :
    steps path = ((path.toList.splitOn '/').map String.ofList).filter (· ≠ "") := by
  rw [steps, ← String.toList_split_char]
  rfl

theorem text?_put (d : Directory) (place : List String) (text : String) (p : List String) :
    (d.put place text).text? p = if p = place then some text else d.text? p := by
  unfold put text?
  by_cases hsome : ((d.files.find? fun f => f.1 = place).map Prod.snd).isSome = true
  · have hsame : ((fun f : List String × String => decide (f.1 = p)) ∘
        fun f => if f.1 = place then (place, text) else f) = fun f => decide (f.1 = p) := by
      funext f
      by_cases hf : f.1 = place <;> simp [hf]
    simp only [if_pos hsome, List.find?_map, hsame, Option.map_map]
    rw [Option.isSome_map] at hsome
    by_cases hp : p = place
    · subst hp
      obtain ⟨f, hf⟩ := Option.isSome_iff_exists.mp hsome
      have hplace := List.find?_some hf
      simp only [decide_eq_true_eq] at hplace
      simp [hf, hplace]
    · cases hfind : d.files.find? fun f => f.1 = p with
      | none => simp [hp]
      | some f =>
          have hplace := List.find?_some hfind
          simp only [decide_eq_true_eq] at hplace
          simp [hp, hplace]
  · rw [Option.isSome_map, Bool.not_eq_true, Option.isSome_eq_false_iff, Option.isNone_iff_eq_none]
      at hsome
    by_cases hp : p = place
    · subst hp
      simp [hsome]
    · simp [hsome, List.find?_append, hp, Ne.symm hp]

theorem find_put_of_ne {p : List String} (h : p ≠ place) :
    (d.put place text).find p = d.find p := by
  unfold find entry?
  rw [text?_put, if_neg h]
  rfl

theorem find_put_self (h : d.find place ≠ .error .nameTooLong) :
    (d.put place text).find place = .ok (.file text) := by
  unfold find at h ⊢
  by_cases hname : place.any (255 < ·.utf8ByteSize) = true
  · rw [if_pos hname] at h
    exact absurd rfl h
  · rw [if_neg hname, entry?, text?_put, if_pos rfl]

/-- Ways lead through folders, so they stay open as long as no folder is
lost. -/
theorem follow_mono (h : ∀ p, d.find p = .ok .folder → d'.find p = .ok .folder)
    {here p : List String} {names : List String} (hfollow : d.follow here names = .ok p) :
    d'.follow here names = .ok p := by
  fun_induction d.follow here names with
  | case1 => exact hfollow
  | case2 => exact hfollow
  | case3 here name rest hrest hfind ih =>
      rw [follow, h _ hfind]
      · exact ih hfollow
      · exact hrest
  | case4 => cases hfollow
  | case5 => cases hfollow

theorem resolve_mono (h : ∀ p, d.find p = .ok .folder → d'.find p = .ok .folder)
    {p : List String} (hresolve : d.resolve path = .ok p) : d'.resolve path = .ok p := by
  unfold resolve at hresolve ⊢
  split at hresolve
  · cases hresolve
  · split at hresolve
    · cases hresolve
    · split at hresolve
      · cases hresolve
      · next h1 h2 h3 =>
          rw [if_neg h1, if_neg h2, if_neg h3]
          exact follow_mono h hresolve

theorem resolve_put (h : d.find place ≠ .ok .folder) {p : List String}
    (hresolve : d.resolve path = .ok p) : (d.put place text).resolve path = .ok p := by
  refine resolve_mono ?_ hresolve
  intro q hq
  -- a folder stands at `q`, and none stands at `place`
  have hne : q ≠ place := by
    rintro rfl
    exact h hq
  rw [find_put_of_ne hne, hq]

theorem create_eq_ok (h : d.create path text = .ok d') :
    ∃ place, d.resolve path = .ok place ∧ path.endsWith "/" = false ∧
      d.find place ≠ .ok .folder ∧ d.find place ≠ .error .nameTooLong ∧
      d' = d.put place text := by
  obtain ⟨place, hresolve, h⟩ := bind_eq_ok h
  split at h
  · cases h
  · next hslash =>
      refine ⟨place, hresolve, Bool.not_eq_true _ ▸ hslash, ?_⟩
      split at h
      · cases h
      · next hfind => exact ⟨by simp [hfind], by simp [hfind], (Except.ok.inj h).symm⟩
      · next hfind => exact ⟨by simp [hfind], by simp [hfind], (Except.ok.inj h).symm⟩
      · cases h

theorem find_eq_nameTooLong_iff :
    d.find place = .error .nameTooLong ↔ place.any (255 < ·.utf8ByteSize) = true := by
  unfold find
  by_cases hname : place.any (255 < ·.utf8ByteSize) = true
  · rw [if_pos hname]
    exact ⟨fun _ => hname, fun _ => rfl⟩
  · rw [if_neg hname]
    cases d.entry? place <;> simp [hname]

/-- A file can be written where its path leads, whatever its text. -/
theorem create_of_resolve (hresolve : d.resolve path = .ok place)
    (hslash : path.endsWith "/" = false) (hfolder : d.find place ≠ .ok .folder)
    (hname : d.find place ≠ .error .nameTooLong) (text : String) :
    d.create path text = .ok (d.put place text) := by
  have hfind : (∃ old, d.find place = .ok (.file old)) ∨ d.find place = .error .notFound := by
    unfold find at hfolder hname ⊢
    by_cases hlong : place.any (255 < ·.utf8ByteSize) = true
    · rw [if_pos hlong] at hname
      exact absurd rfl hname
    · rw [if_neg hlong] at hfolder ⊢
      cases hentry : d.entry? place with
      | none => exact Or.inr rfl
      | some entry =>
          rw [hentry] at hfolder
          cases entry with
          | file old => exact Or.inl ⟨old, rfl⟩
          | folder => exact absurd rfl hfolder
  rcases hfind with ⟨old, hfind⟩ | hfind <;>
    simp [create, hresolve, bind, Except.bind, hslash, hfind]

/-- Where ways stay open and no folder is added, files can still be
written, with whatever text. -/
theorem exists_create_mono
    (hresolve : ∀ place, d.resolve path = .ok place → d'.resolve path = .ok place)
    (hfolder : ∀ place, d'.find place = .ok .folder → d.find place = .ok .folder)
    (h : ∃ after, d.create path text = .ok after) (other : String) :
    ∃ after, d'.create path other = .ok after := by
  obtain ⟨after, h⟩ := h
  obtain ⟨place, hplace, hslash, hfind, hname, -⟩ := create_eq_ok h
  refine ⟨_, create_of_resolve (hresolve place hplace) hslash (mt (hfolder place) hfind) ?_ other⟩
  exact mt find_eq_nameTooLong_iff.mp (mt find_eq_nameTooLong_iff.mpr hname)

theorem read_create (h : d.create path text = .ok d') : d'.read path = .ok (.file text) := by
  obtain ⟨place, hresolve, hslash, hfolder, hname, rfl⟩ := create_eq_ok h
  simp only [read, resolve_put hfolder hresolve, bind, Except.bind, find_put_self hname, hslash]
  rfl

end Directory

end Thompson
