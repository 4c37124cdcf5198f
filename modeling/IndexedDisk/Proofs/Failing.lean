import IndexedDisk.Proofs.Between
import IndexedDisk.Proofs.Listing
import Mathlib.Data.List.Nodup

/-!
# Requests that fail on the way

A request to make or to remove a file that the device stops has come some way. The directory and the
sector map are then not always what they were: a file is entered before its sectors are put in use,
and its sectors are given back before its entry is. In between the entry is there, and sectors of
the file are free.

* `Creation.halfway`, `Removal.halfway`: what is stored once a part of the transfers is made.
* `entered_of_budgeted`: there is no file that cannot be entered by a request that fails.
* `changes_halfway_at_most`: what a request leaves that fails, whatever faults strike.
-/

open IndexedDisk.Tree IndexedDisk.OpenFile

namespace IndexedDisk

seal Tree.table

variable {m : Medium} {count : Nat}

/-! ## How far a request has come -/

/-- From `m` to `m₁` a file is made, and on `m'` it is in its directory or nothing has changed. -/
def Entering (m m₁ m' : Medium) (count : Nat) : Prop :=
  (TablesOf m m m' ∧ bitmap m' count = bitmap m count) ∨
    (TablesOf m m₁ m' ∧ Mixed m m₁ m' count)

/-- From `m` to `m₁` a file is removed, and on `m'` it is in its directory or all is done. -/
def Leaving (m m₁ m' : Medium) (count : Nat) : Prop :=
  (TablesOf m m m' ∧ Mixed m m₁ m' count) ∨
    (TablesOf m m₁ m' ∧ bitmap m' count = bitmap m₁ count)

theorem Tree.Consistent.nodup_targets (hc : Consistent m count) {o o' : Owner} {s s' : Nat}
    (hs : Names m o s) (hs' : Names m o' s') (hne : o ≠ o') (data data' : Array UInt8) :
    (((Header.stored m s).writeScript m 0 data).targets
      ++ ((Header.stored m s').writeScript m 0 data').targets).Nodup := by
  have h := hc.intact _ _ hs
  have h' := hc.intact _ _ hs'
  refine List.nodup_append.mpr ⟨Header.nodup_targets_writeScript 0 data h (hc.separate hs),
    Header.nodup_targets_writeScript 0 data' h' (hc.separate hs'), ?_⟩
  rintro i hi _ hi' rfl
  exact hc.data_disjoint hs hs' hne (Header.targets_writeScript_subset 0 data h hi)
    (Header.targets_writeScript_subset 0 data' h' hi')

namespace Creation

variable {c : Creation} (hc : Consistent m count) (hv : c.Valid m count)
include hc hv

theorem between_take (k : Nat) :
    Between m (c.after m count) (Script.medium m ((c.script m count).take k)) := by
  intro i o r ho
  obtain ⟨o', hmap, ho'⟩ := exists_names hv.parent
  have hstage : (c.stage m).targets.count i = 0 := List.count_eq_zero.mpr fun hi =>
    not_owns_of_drawn hc hv (targets_stage_subset hv hi) o r ho
  have hwrites : ((c.directoryScript m).targets ++ (c.mapScript m count).targets).Nodup :=
    hc.nodup_targets ho' .map hmap _ _
  rw [← medium_script]
  refine Script.get_medium_take ?_ m k
  rw [script, Script.targets_append, Script.targets_append, List.count_append, hstage, Nat.zero_add]
  exact List.nodup_iff_count_le_one.mp hwrites i

/-- The map is not written before the entry is made. -/
theorem halfway (k : Nat) :
    Entering m (c.after m count) (Script.medium m ((c.script m count).take k)) count := by
  have hbetween := between_take hc hv k
  have hafter := framed_after hc hv
  have hframed := hbetween.framed hafter
  have hmixed := hbetween.mixed hc hafter
  obtain ⟨o, hmap, ho⟩ := exists_names hv.parent
  have hsplit : c.script m count = (c.stage m ++ c.directoryScript m) ++ c.mapScript m count :=
    (List.append_assoc ..).symm
  have hcut := Script.get_medium_take_append (c.stage m ++ c.directoryScript m)
    (c.mapScript m count) m k
  rw [← hsplit, medium_script] at hcut
  rcases hcut with hcut | hcut
  · have hbitmap := hc.bitmap_eq hframed fun i hi => hcut i fun htarget => by
      obtain ⟨a, ha⟩ := owns_data .map hi
      rw [Script.targets_append, List.mem_append] at htarget
      rcases htarget with htarget | htarget
      · exact not_owns_of_drawn hc hv (targets_stage_subset hv htarget) _ _ ha
      · exact hc.data_disjoint .map ho hmap.symm hi
          (Header.targets_writeScript_subset 0 _ (hc.intact _ _ ho) htarget)
    have hone (d : Nat) (hd : Reached m d) (j : Nat)
        (hj : ¬ (d = Word.wide c.parent ∧ j = c.slot)) :
        (table (c.after m count) d).slots[j]? = (table m d).slots[j]? := by
      rw [getElem?_after hc hv d hd, if_neg hj]
    exact (hbetween.tables_cases hc hafter hone).imp (⟨·, hbitmap⟩) (⟨·, hmixed⟩)
  · refine Or.inr ⟨fun d hd => hc.table_eq_of hframed hafter hd fun i hi => hcut i ?_, hmixed⟩
    obtain ⟨o', hmap', ho'⟩ := exists_names hd
    exact fun htarget => hc.data_disjoint ho' .map hmap' hi
      (Header.targets_writeScript_subset 0 _ (hc.intact _ _ .map) htarget)

end Creation

namespace Removal

variable {r : Removal} (hc : Consistent m count) (hv : r.Valid m)
include hc hv

theorem between_take (k : Nat) :
    Between m (r.after m count) (Script.medium m ((r.script m count).take k)) := by
  intro i o a ho
  obtain ⟨o', hmap, ho'⟩ := exists_names hv.parent
  rw [← medium_script]
  refine Script.get_medium_take (List.nodup_iff_count_le_one.mp ?_ i) m k
  rw [script, Script.targets_append]
  exact hc.nodup_targets .map ho' hmap.symm _ _

/-- The entry is not given up before the map is written. -/
theorem halfway (k : Nat) :
    Leaving m (r.after m count) (Script.medium m ((r.script m count).take k)) count := by
  have hbetween := between_take hc hv k
  have hafter := framed_after hc hv
  have hframed := hbetween.framed hafter
  have hmixed := hbetween.mixed hc hafter
  obtain ⟨o, hmap, ho⟩ := exists_names hv.parent
  have hcut := Script.get_medium_take_append (r.mapScript m count) (r.directoryScript m) m k
  rw [← script, medium_script] at hcut
  rcases hcut with hcut | hcut
  · refine Or.inl ⟨fun d hd => hc.table_eq hframed hd fun i hi => hcut i ?_, hmixed⟩
    obtain ⟨o', hmap', ho'⟩ := exists_names hd
    exact fun htarget => hc.data_disjoint ho' .map hmap' hi
      (Header.targets_writeScript_subset 0 _ (hc.intact _ _ .map) htarget)
  · have hbitmap := hc.bitmap_eq_of hframed hafter fun i hi => hcut i fun htarget =>
      hc.data_disjoint .map ho hmap.symm hi
        (Header.targets_writeScript_subset 0 _ (hc.intact _ _ ho) htarget)
    have hone (d : Nat) (hd : Reached m d) (j : Nat)
        (hj : ¬ (d = Word.wide r.parent ∧ j = r.slot)) :
        (table (r.after m count) d).slots[j]? = (table m d).slots[j]? := by
      rw [getElem?_after hc hv d hd, if_neg hj]
    exact (hbetween.tables_cases hc hafter hone).imp (⟨·, hmixed⟩) (⟨·, hbitmap⟩)

end Removal

/-! ## What a failed request leaves -/

/-- The file system, on a disk with this plan of faults. -/
def FileSystem.withFaults (fs : FileSystem) (p : FaultPlan) : FileSystem :=
  { fs with disk := { fs.disk with faults := p } }

/-- A request that makes or removes a file has come from `m` to `m'` on its way to `m₁`. -/
def Request.Halfway (m m₁ m' : Medium) (count : Nat) : Request → Prop
  | create .. | createDirectory _ => Entering m m₁ m' count
  | remove _ => Leaving m m₁ m' count
  | _ => False

/-- A request that fails has left the disk as it was, or the device has stopped what was planned. -/
theorem Performs.stopped {κ α : Type} {script : κ → Script} {result : κ → α}
    {plan : Except Refusal κ} {act : DiskM α} (h : Performs m count script result plan act)
    {p : FaultPlan} {v : Volume} {t : OpenTable} {g : α → FileSystemM Unit}
    (hg : ∀ a fs, ∃ fs', g a fs = answer (.ok ()) fs') {act' : FileSystemM Unit}
    (hact' : act' ⟨⟨m, count, p⟩, v, t⟩
      = (liftM act >>= g : FileSystemM Unit) ⟨⟨m, count, p⟩, v, t⟩)
    {cause : Failure}
    (hfail : (Request.respond (fun _ => .done) act' ⟨⟨m, count, p⟩, v, t⟩).1 = .failed cause) :
    (Request.respond (fun _ => .done) act' ⟨⟨m, count, p⟩, v, t⟩).2.disk.medium = m ∨
      (∃ e, cause = .refused (.device e)) ∧ ∃ k n, plan = .ok k ∧
        (Request.respond (fun _ => .done) act' ⟨⟨m, count, p⟩, v, t⟩).2.disk.medium
          = Script.medium m ((script k).take n) := by
  have herror (cause' : Failure) {disk : Disk}
      (hact : act ⟨m, count, p⟩ = answer (.error cause') disk) :
      Request.respond (fun _ => .done) act' ⟨⟨m, count, p⟩, v, t⟩
        = (.failed cause', ⟨disk, v, t⟩) := by
    refine Request.respond_error (hact'.trans ?_)
    rw [bind_apply, FileSystem.lift_answer hact]
    rfl
  cases hplan : plan with
  | error cause' =>
    left
    obtain ⟨l, -, hfollows⟩ := h.answers cause' hplan
    rcases hfollows.cases p with hact | ⟨k, -, e, q, hact⟩
    · rw [herror _ hact]
      exact Script.medium_reads m l
    · rw [herror (.refused (.device e)) hact, ← Script.reads_take]
      exact Script.medium_reads m _
  | ok k =>
    obtain ⟨n, q, hact | ⟨e, hact⟩⟩ := (h.commits k hplan).exists_take p
    · obtain ⟨fs', hfs'⟩ := hg (result k) ⟨⟨(script k).medium m, count, q⟩, v, t⟩
      have hdone : act' ⟨⟨m, count, p⟩, v, t⟩ = answer (.ok ()) fs' := by
        rw [hact', bind_apply, FileSystem.lift_answer hact]
        exact hfs'
      rw [Request.respond_ok hdone] at hfail
      cases hfail
    · right
      rw [herror (.refused (.device e)) hact] at hfail ⊢
      cases hfail
      exact ⟨⟨e, rfl⟩, k, n, rfl, rfl⟩

section

variable (hc : Consistent m count) {p q : FaultPlan} (hq : q.Faultless) {t : OpenTable}
  {cause : Failure}
include hc hq

theorem halfway_of_creation {act : DiskM Unit} {plan : Except Refusal Creation}
    (h : Performs m count (Creation.script · m count) (fun _ => ()) plan act)
    (hvalid : ∀ c, plan = .ok c → c.Valid m count) {act' : FileSystemM Unit}
    (hact' : ∀ p, act' ⟨⟨m, count, p⟩, Volume.on m, t⟩
      = (liftM act : FileSystemM Unit) ⟨⟨m, count, p⟩, Volume.on m, t⟩)
    (hfail : (Request.respond (fun _ => .done) act' ⟨⟨m, count, p⟩, Volume.on m, t⟩).1
      = .failed cause) :
    (Request.respond (fun _ => .done) act' ⟨⟨m, count, p⟩, Volume.on m, t⟩).2.disk.medium = m ∨
      (∃ e, cause = .refused (.device e)) ∧
        (Request.respond (fun _ => .done) act' ⟨⟨m, count, q⟩, Volume.on m, t⟩).1 = .done ∧
        Entering m
          (Request.respond (fun _ => .done) act' ⟨⟨m, count, q⟩, Volume.on m, t⟩).2.disk.medium
          (Request.respond (fun _ => .done) act' ⟨⟨m, count, p⟩, Volume.on m, t⟩).2.disk.medium
          count := by
  have hbind := (hact' p).trans (congrFun (bind_pure _).symm _)
  refine (h.stopped (fun _ fs => ⟨fs, rfl⟩) hbind hfail).imp_right ?_
  rintro ⟨hcause, c, n, hplan, hmedium⟩
  obtain ⟨q', -, heq⟩ := Request.respond_made (t := t) (f := fun _ => .done) hc hq h hplan
    (hvalid c hplan) (hact' q)
  rw [hmedium, heq]
  exact ⟨hcause, rfl, Creation.halfway hc (hvalid c hplan) n⟩

theorem halfway_of_removal {path : String}
    (hfail : ((Request.remove path).perform ⟨⟨m, count, p⟩, Volume.on m, t⟩).1 = .failed cause) :
    ((Request.remove path).perform ⟨⟨m, count, p⟩, Volume.on m, t⟩).2.disk.medium = m ∨
      (∃ e, cause = .refused (.device e)) ∧
        ((Request.remove path).perform ⟨⟨m, count, q⟩, Volume.on m, t⟩).1 = .done ∧
        Leaving m
          ((Request.remove path).perform ⟨⟨m, count, q⟩, Volume.on m, t⟩).2.disk.medium
          ((Request.remove path).perform ⟨⟨m, count, p⟩, Volume.on m, t⟩).2.disk.medium
          count := by
  refine ((Volume.performs_remove hc path).stopped (fun _ fs => ⟨_, rfl⟩)
    (FileSystem.remove_eq path) hfail).imp_right ?_
  rintro ⟨hcause, r, n, hplan, hmedium⟩
  obtain ⟨q', -, heq⟩ := Request.perform_remove (t := t) hc hq hplan
  rw [heq]
  refine ⟨hcause, rfl, ?_⟩
  rw [Request.perform, hmedium]
  exact Removal.halfway hc (Removal.serves_of_plan hplan).valid n

end

/-! ## Entries without sectors -/

theorem Commits.eval_budgeted {α : Type} {act : DiskM α} {a b : Script} {result : Except Failure α}
    (h : Commits m count act (a ++ b) result) (hb : b.targets ≠ []) {p : FaultPlan}
    (hp : p.Budgeted a.targets.length) (hscript : (a ++ b).Within count)
    (hm : sectorSize * count ≤ m.size) : ∃ q, act ⟨m, count, p⟩
      = .error (.refused (.device .writeFault)) ⟨a.medium m, count, q⟩ := by
  obtain ⟨l, hl, h⟩ := h
  rw [← List.append_assoc] at h
  have htargets : (Script.reads l ++ a).targets = a.targets := by
    rw [Script.targets_append, Script.targets_reads, List.nil_append]
  have hmore : a.targets.length < (Script.reads l ++ a ++ b).targets.length := by
    rw [Script.targets_append, htargets, List.length_append]
    have := List.length_pos_iff.mpr hb
    omega
  have hwithin : (Script.reads l ++ a ++ b).Within count := by
    rw [List.append_assoc]
    exact Script.within_append.mpr ⟨Script.within_reads.mpr hl, hscript⟩
  obtain ⟨k, q, hk, hplay⟩ := Script.play_of_budgeted hp hmore hwithin hm
  rw [← htargets] at hk
  refine ⟨q, ?_⟩
  rw [h p, bind_apply, hplay, Script.medium_take_append hk, Script.medium_append,
    Script.medium_reads]

namespace Creation

variable {c : Creation} (hc : Consistent m count) (hv : c.Valid m count)
include hc hv

omit hv in
theorem targets_mapScript_ne_nil : (c.mapScript m count).targets ≠ [] := by
  have hcount : 0 < count := Nat.zero_lt_of_lt (hc.names_lt .map)
  have hpos : 0 < min (0 + (c.map m count).image.size)
      (Header.stored m (Word.wide mapSector)).length := by
    rw [SectorMap.size_image, size_map, hc.map_length, SectorMap.imageSize]
    omega
  rw [mapScript, Header.targets_writeScript, spans, if_pos hpos]
  exact List.cons_ne_nil _ _

theorem stored_entered :
    TablesOf m (c.after m count) (c.entered m) ∧ bitmap (c.entered m) count = bitmap m count := by
  have hafter := framed_after hc hv
  have hkeep {i : Nat} (hi : i ∉ (Header.stored m (Word.wide mapSector)).data m) :
      (c.entered m).get i = (c.after m count).get i := (get_after hc hi).symm
  have hmap {i : Nat} (hi : i ∈ (Header.stored m (Word.wide mapSector)).data m) :
      (c.entered m).get i = m.get i := get_entered_of_map hc hv (List.mem_append_right _ hi)
  have hframed : Framed m (c.entered m) := by
    refine Between.framed (fun i o r ho => ?_) hafter
    by_cases hi : i ∈ (Header.stored m (Word.wide mapSector)).data m
    · exact Or.inl (hmap hi)
    · exact Or.inr (hkeep hi)
  refine ⟨fun d hd => hc.table_eq_of hframed hafter hd fun i hi => hkeep ?_,
    hc.bitmap_eq hframed fun i hi => hmap hi⟩
  obtain ⟨o, hne, ho⟩ := exists_names hd
  exact hc.data_disjoint ho .map hne hi

end Creation

/--
Whatever file can be made, there is a number of writes after which the request fails with the entry
made and all sectors of the file free.
-/
theorem entered_of_budgeted {fs : FileSystem} (h : fs.Healthy) {path : String} {size : Nat}
    {c : Creation} (hplan : Creation.plan fs.disk.medium fs.disk.count path size .file = .ok c)
    {p : FaultPlan}
    (hp : p.Budgeted (c.stage fs.disk.medium ++ c.directoryScript fs.disk.medium).targets.length) :
    ((Request.create path size).perform (fs.withFaults p)).1
        = .failed (.refused (.device .writeFault)) ∧
      TablesOf fs.disk.medium (c.after fs.disk.medium fs.disk.count)
        ((Request.create path size).perform (fs.withFaults p)).2.disk.medium ∧
      bitmap ((Request.create path size).perform (fs.withFaults p)).2.disk.medium fs.disk.count
        = bitmap fs.disk.medium fs.disk.count := by
  obtain ⟨⟨m, count, q⟩, v, t⟩ := fs
  obtain ⟨hs, -, hv⟩ := h
  dsimp only at hs hv hplan hp
  subst hv
  have hc := hs.consistent
  have hvalid := (Creation.serves_of_planFile hc hplan).valid
  have hsplit : c.script m count = (c.stage m ++ c.directoryScript m) ++ c.mapScript m count :=
    (List.append_assoc ..).symm
  have hcommits := (Volume.performs_create hc path size).commits c hplan
  have hwithin := Creation.within_script hc hvalid
  rw [hsplit] at hcommits hwithin
  obtain ⟨q', hact⟩ := hcommits.eval_budgeted (Creation.targets_mapScript_ne_nil hc) hp hwithin
    hc.covered
  rw [Script.medium_append] at hact
  have hperform : (Request.create path size).perform ⟨⟨m, count, p⟩, Volume.on m, t⟩
      = (.failed (.refused (.device .writeFault)), ⟨⟨c.entered m, count, q'⟩, Volume.on m, t⟩) :=
    Request.respond_error ((FileSystem.getVolume_bind (·.create path size)).trans
      (FileSystem.lift_answer hact))
  change (Request.perform ⟨⟨m, count, p⟩, Volume.on m, t⟩ _).1 = _ ∧
    TablesOf m _ (Request.perform ⟨⟨m, count, p⟩, Volume.on m, t⟩ _).2.disk.medium ∧
    bitmap (Request.perform ⟨⟨m, count, p⟩, Volume.on m, t⟩ _).2.disk.medium count = _
  rw [hperform]
  exact ⟨rfl, Creation.stored_entered hc hvalid⟩

/-- To enter an empty file four sectors are written: its header, and three of the directory. -/
theorem Creation.length_targets_empty (hc : Consistent m count) {c : Creation}
    (hv : c.Valid m count) (hsize : c.size = 0) (hkind : c.kind = .file) :
    (c.stage m ++ c.directoryScript m).targets.length = 4 := by
  have hfile : c.fileScript.targets = [c.sector] := by
    rw [Creation.fileScript, hsize]
    rfl
  have hblank : c.blankScript m = [] := by
    rw [Creation.blankScript, hkind]
    exact if_neg (by decide)
  have hspans : (spans 0 320).length = 3 := by simp [spans, sectorSize]
  rw [Creation.stage, hblank, List.append_nil, Script.targets_append, hfile,
    Creation.directoryScript, Header.targets_writeScript, Directory.size_image,
    Creation.size_directory, hc.directory_length _ hv.parent, List.length_append, List.length_map]
  exact congrArg (1 + ·) hspans

theorem entered_empty {fs : FileSystem} (h : fs.Healthy) {path : String} {c : Creation}
    (hplan : Creation.plan fs.disk.medium fs.disk.count path 0 .file = .ok c) :
    ((Request.create path 0).perform (fs.withFaults { budget := some 4 })).1
        = .failed (.refused (.device .writeFault)) ∧
      slot? ((Request.create path 0).perform (fs.withFaults { budget := some 4 })).2.disk.medium
        (Word.wide c.parent) c.slot = some c.entry ∧
      (bitmap ((Request.create path 0).perform
        (fs.withFaults { budget := some 4 })).2.disk.medium fs.disk.count).free
          = c.sector :: c.rest := by
  have hc := h.sound.consistent
  have hserves : c.Serves fs.disk.medium fs.disk.count path 0 .file :=
    Creation.serves_of_planFile hc hplan
  have hv := hserves.valid
  have hlength := Creation.length_targets_empty hc hv hserves.size_eq hserves.kind_eq
  have hp : FaultPlan.Budgeted { budget := some 4 }
      (c.stage fs.disk.medium ++ c.directoryScript fs.disk.medium).targets.length := by
    rw [hlength]
    exact FaultPlan.budgeted_default 4
  obtain ⟨hfail, htables, hbitmap⟩ := entered_of_budgeted h hplan hp
  refine ⟨hfail, ?_, by rw [hbitmap, hv.free]⟩
  rw [slot?_congr (htables _ hv.parent), Creation.slot?_after hc hv _ hv.parent, if_pos ⟨rfl, rfl⟩]

/-! ## Failed requests -/

/--
**A failed request comes halfway at most.** When a request to make or to remove a file fails, either
the disk is as it was, or the device has stopped the request on the way. In that case the
directories are those from before or those that the request would have left. A file that was to be
made is in its directory before any of its sectors is in use, and one that was to be removed is
there until all of its sectors are free.
-/
theorem changes_halfway_at_most {fs : FileSystem} (h : Reachable fs) (p : FaultPlan) {r : Request}
    (hr : r matches .create .. | .createDirectory .. | .remove ..) {cause : Failure}
    (hfail : (r.perform (fs.withFaults p)).1 = .failed cause) :
    (r.perform (fs.withFaults p)).2.disk.medium = fs.disk.medium ∨
      (∃ e, cause = .refused (.device e)) ∧ (r.perform fs).1 = .done ∧
        r.Halfway fs.disk.medium (r.perform fs).2.disk.medium
          (r.perform (fs.withFaults p)).2.disk.medium fs.disk.count := by
  obtain ⟨hs, hq, hv⟩ := h.healthy
  obtain ⟨⟨m, count, q⟩, v, t⟩ := fs
  dsimp only at hs hq hv
  subst hv
  have hc := hs.consistent
  cases r with
  | create path size =>
    exact halfway_of_creation hc hq (Volume.performs_create hc path size)
      (fun c hplan => (Creation.serves_of_planFile hc hplan).valid)
      (fun p => FileSystem.getVolume_bind (·.create path size)) hfail
  | createDirectory path =>
    exact halfway_of_creation hc hq (Volume.performs_createDirectory hc path)
      (fun c hplan => (Creation.serves_of_planDirectory hc hplan).valid)
      (fun p => FileSystem.getVolume_bind (·.createDirectory path)) hfail
  | remove path => exact halfway_of_removal hc hq hfail
  | _ => cases hr

/-- The request that makes a file of a new volume fails halfway. -/
theorem changes_halfway_at_most_first : ∃ fs, Reachable fs ∧
    ((Request.create "/a" 0).perform (fs.withFaults { budget := some 4 })).1
      = .failed (.refused (.device .writeFault)) ∧
    (((Request.create "/a" 0).perform (fs.withFaults { budget := some 4 })).2.disk.medium
        = fs.disk.medium ∨
      (∃ e, Failure.refused (.device .writeFault) = .refused (.device e)) ∧
        ((Request.create "/a" 0).perform fs).1 = .done ∧
        (Request.create "/a" 0).Halfway fs.disk.medium
          ((Request.create "/a" 0).perform fs).2.disk.medium
          ((Request.create "/a" 0).perform (fs.withFaults { budget := some 4 })).2.disk.medium
          fs.disk.count) := by
  obtain ⟨m, q, -, -, hfs⟩ := exists_reachable_sixteen
  have hfail := (entered_empty hfs.healthy (Formatting.plan_sixteen m (Nat.zero_le 1152))).1
  exact ⟨_, hfs, hfail, changes_halfway_at_most hfs { budget := some 4 } rfl hfail⟩

/-- A request that fails has entered a file in a new volume, with its header in a free sector. -/
theorem entered_though_failed : ∃ fs, Reachable fs ∧ fs.disk.count = 16 ∧
    (∀ i, slot? fs.disk.medium 1 i = none) ∧
    ((Request.create "/a" 0).perform (fs.withFaults { budget := some 4 })).1
      = .failed (.refused (.device .writeFault)) ∧
    slot? ((Request.create "/a" 0).perform (fs.withFaults { budget := some 4 })).2.disk.medium 1 0
      = some (.named "a" 6 .file) ∧
    (bitmap ((Request.create "/a" 0).perform
      (fs.withFaults { budget := some 4 })).2.disk.medium 16).free = List.range' 6 10 := by
  obtain ⟨m, q, -, -, hfs⟩ := exists_reachable_sixteen
  exact ⟨_, hfs, rfl, Formatting.slot?_after Formatting.valid_sixteen,
    entered_empty hfs.healthy (Formatting.plan_sixteen m (Nat.zero_le 1152))⟩

end IndexedDisk
