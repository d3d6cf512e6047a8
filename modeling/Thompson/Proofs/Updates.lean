import Mathlib.Data.List.Induction
import Thompson.Proofs.Files

/-!
# Directories after several writes

Files are written one after another, and several paths may lead to one
place. `Directory.Updated` says what is in a directory afterwards in
terms of the directory before: at every place the text that was written
there last, or what was there before, and no other folders. It is the
invariant of writing files (`Updated.create`), because the places that
paths lead to do not change on the way (`Updated.resolve_iff`).
-/

namespace Thompson

namespace Directory

variable {before after after' : Directory} {writes : List (String × String)}
  {path text : String} {place : List String}

/-- What is at a place once texts are written to some paths in turn: of
those paths that lead to it, the last one decides. -/
def textAfter (d : Directory) (writes : List (String × String)) (place : List String) :
    Option String :=
  writes.foldl (fun text w => if d.resolve w.1 = .ok place then some w.2 else text) (d.text? place)

/-- A directory once texts are written to some paths in turn, and
nothing else has happened. -/
structure Updated (before : Directory) (writes : List (String × String)) (after : Directory) :
    Prop where
  /-- Each path could have been written to first. -/
  writable : ∀ w ∈ writes, ∃ d, before.create w.1 w.2 = .ok d
  folders_eq : after.folders = before.folders
  text?_eq : ∀ place, after.text? place = before.textAfter writes place

theorem updated_nil (d : Directory) : d.Updated [] d :=
  ⟨fun _ hw => absurd hw List.not_mem_nil, rfl, fun _ => rfl⟩

theorem textAfter_concat (d : Directory) (writes : List (String × String)) (path text : String)
    (place : List String) :
    d.textAfter (writes ++ [(path, text)]) place =
      if d.resolve path = .ok place then some text else d.textAfter writes place :=
  List.foldl_concat ..

theorem textAfter_eq_none_iff :
    before.textAfter writes place = none ↔
      before.text? place = none ∧ ∀ w ∈ writes, before.resolve w.1 ≠ .ok place := by
  induction writes using List.reverseRecOn with
  | nil => simp [textAfter]
  | append_singleton writes w ih =>
      rw [textAfter_concat]
      by_cases hw : before.resolve w.1 = .ok place
      · rw [if_pos hw]
        constructor
        · rintro ⟨⟩
        · rintro ⟨-, hleads⟩
          exact absurd hw (hleads w (by simp))
      · rw [if_neg hw, ih, List.forall_mem_append, List.forall_mem_singleton]
        simp [hw]

theorem find_eq_folder_iff {d : Directory} :
    d.find place = .ok .folder ↔
      place.any (255 < ·.utf8ByteSize) = false ∧ d.text? place = none ∧
        d.isFolder place = true := by
  unfold find entry?
  by_cases hname : place.any (255 < ·.utf8ByteSize) = true
  · rw [if_pos hname, hname]
    simp
  · rw [if_neg hname, eq_false_of_ne_true hname]
    cases d.text? place with
    | some text => simp
    | none => by_cases hfolder : d.isFolder place = true <;> simp [hfolder]

namespace Updated

/-- No folder is lost, and none is made. -/
theorem find_eq_folder_iff (h : before.Updated writes after) :
    after.find place = .ok .folder ↔ before.find place = .ok .folder := by
  have hfolder : after.isFolder place = before.isFolder place := by
    rw [isFolder, isFolder, h.folders_eq]
  rw [Directory.find_eq_folder_iff, h.text?_eq, hfolder, textAfter_eq_none_iff]
  constructor
  · rintro ⟨hname, ⟨htext, -⟩, hplace⟩
    exact Directory.find_eq_folder_iff.mpr ⟨hname, htext, hplace⟩
  · intro hfind
    obtain ⟨hname, htext, hplace⟩ := Directory.find_eq_folder_iff.mp hfind
    refine ⟨hname, ⟨htext, ?_⟩, hplace⟩
    intro w hw hleads
    obtain ⟨_, hcreate⟩ := h.writable w hw
    obtain ⟨p, hp, -, hfile, -⟩ := create_eq_ok hcreate
    obtain rfl : p = place := Except.ok.inj (hp.symm.trans hleads)
    exact hfile hfind

theorem resolve_iff (h : before.Updated writes after) :
    after.resolve path = .ok place ↔ before.resolve path = .ok place :=
  ⟨resolve_mono fun _ => h.find_eq_folder_iff.mp, resolve_mono fun _ => h.find_eq_folder_iff.mpr⟩

/-- Whether a file can be written does not depend on what was written
before. -/
theorem exists_create_iff (h : before.Updated writes after) :
    (∃ d, after.create path text = .ok d) ↔ ∃ d, before.create path text = .ok d :=
  ⟨fun hcreate => exists_create_mono (fun _ => h.resolve_iff.mp)
      (fun _ => h.find_eq_folder_iff.mpr) hcreate text,
    fun hcreate => exists_create_mono (fun _ => h.resolve_iff.mpr)
      (fun _ => h.find_eq_folder_iff.mp) hcreate text⟩

/-- One more file is written. -/
theorem create (h : before.Updated writes after) (hcreate : after.create path text = .ok after') :
    before.Updated (writes ++ [(path, text)]) after' := by
  obtain ⟨place, hresolve, -, -, -, rfl⟩ := create_eq_ok hcreate
  have hleads := h.resolve_iff.mp hresolve
  refine ⟨?_, h.folders_eq, ?_⟩
  · intro w hw
    rcases List.mem_append.mp hw with hw | hw
    · exact h.writable w hw
    · obtain rfl := List.mem_singleton.mp hw
      exact h.exists_create_iff.mp ⟨_, hcreate⟩
  · intro p
    rw [text?_put, textAfter_concat, hleads, h.text?_eq]
    by_cases hp : p = place
    · rw [if_pos hp, if_pos (congrArg _ hp.symm)]
    · rw [if_neg hp, if_neg fun heq => hp (Except.ok.inj heq).symm]

end Updated

end Directory

end Thompson
