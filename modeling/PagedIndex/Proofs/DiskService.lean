import PagedIndex.Proofs.DiskContents

/-!
# A steady disk refuses nothing

A disk is steady if no access of its volume is refused and nothing lies where a segment's file
belongs that is not a file. What the store does keeps a disk so: files stay where they are, and the
place of each segment's file with them. A store that is made anew in the same directory therefore
finds the files of the old one.
-/

namespace PagedIndex

namespace Volume

theorem access_follows (volume : Volume) :
    Ends access volume
      (fun _ v => v.entries = volume.entries ∧ ∀ outcome ∈ v.outcomes, outcome ∈ volume.outcomes)
      (fun cause v => v.entries = volume.entries ∧
        (∀ outcome ∈ v.outcomes, outcome ∈ volume.outcomes) ∧ some cause ∈ volume.outcomes) := by
  unfold Ends access EStateM.run
  rcases h : volume.outcomes with _ | ⟨_ | cause, rest⟩ <;> simp_all

theorem content_follows (place : Path) (volume : Volume) :
    Ends (content place) volume
      (fun file v => v.entries = volume.entries ∧
        (∀ outcome ∈ v.outcomes, outcome ∈ volume.outcomes) ∧ v.entryAt place = some (.file file))
      (fun cause v => v.entries = volume.entries ∧
        (∀ outcome ∈ v.outcomes, outcome ∈ volume.outcomes) ∧
        (some cause ∈ volume.outcomes ∨ ∀ file, volume.entryAt place ≠ some (.file file))) := by
  rw [content, Ends.bind_iff]
  refine (access_follows volume).imp ?_ fun _ _ ended => ⟨ended.1, ended.2.1, .inl ended.2.2⟩
  rintro _ v ⟨same, outcomes⟩
  simp only [Ends.bind_iff, Ends.get_iff]
  cases there : v.entryAt place with
  | none =>
    refine ⟨same, outcomes, .inr fun file here => ?_⟩
    cases there.symm.trans ((entryAt_congr same place).trans here)
  | some entry =>
    cases entry with
    | directory =>
      refine ⟨same, outcomes, .inr fun file here => ?_⟩
      cases there.symm.trans ((entryAt_congr same place).trans here)
    | file file => exact ⟨same, outcomes, there⟩

theorem entryAt_file_ne_nil {volume : Volume} {place : Path} {file : File}
    (there : volume.entryAt place = some (.file file)) : place ≠ [] := by
  rintro rfl
  cases there

end Volume

namespace Disk

open SegmentStore (fileName)

/-- No access is refused, and each segment has its file or room for one. -/
structure Steady (disk : Disk) : Prop where
  outcomes : ∀ outcome ∈ disk.volume.outcomes, outcome = none
  places : ∀ segment, ∃ place, disk.place? segment = some place ∧
    disk.volume.entryAt place ≠ some .directory
  opened : ∀ segment ∈ disk.store.opened, ∃ place file, disk.place? segment = some place ∧
    disk.volume.entryAt place = some (.file file)

/-- Files and directories are where they were, and no new outcomes are ahead. -/
structure Follows (disk disk' : Disk) : Prop where
  directory : disk'.store.directory = disk.store.directory
  directories : disk.volume.SameDirectories disk'.volume
  places : ∀ segment, disk'.place? segment = disk.place? segment
  files : ∀ place file, disk.volume.entryAt place = some (.file file) →
    ∃ file', disk'.volume.entryAt place = some (.file file')
  opened : ∀ segment ∈ disk'.store.opened, segment ∈ disk.store.opened ∨
    ∃ place file, disk'.place? segment = some place ∧
      disk'.volume.entryAt place = some (.file file)
  outcomes : ∀ outcome ∈ disk'.volume.outcomes, outcome ∈ disk.volume.outcomes

/-- The fault is not the doing of a steady disk. -/
def Excused (disk : Disk) (fault : StorageFault) : Prop :=
  disk.Steady → ∀ cause, fault ≠ .io cause

namespace Follows

variable {disk disk' disk'' : Disk}

theorem refl (disk : Disk) : disk.Follows disk :=
  ⟨rfl, .of_entries rfl, fun _ => rfl, fun _ file there => ⟨file, there⟩, fun _ => .inl,
    fun _ mem => mem⟩

theorem trans (h : disk.Follows disk') (h' : disk'.Follows disk'') : disk.Follows disk'' := by
  refine ⟨h'.directory.trans h.directory, h.directories.trans h'.directories,
    fun segment => (h'.places segment).trans (h.places segment), ?_, ?_,
    fun outcome mem => h.outcomes outcome (h'.outcomes outcome mem)⟩
  · intro place file there
    obtain ⟨file', there'⟩ := h.files place file there
    exact h'.files place file' there'
  · intro segment opened
    rcases h'.opened segment opened with opened | here
    · rcases h.opened segment opened with opened | ⟨place, file, found, there⟩
      · exact .inl opened
      · obtain ⟨file', there'⟩ := h'.files place file there
        exact .inr ⟨place, file', (h'.places segment).trans found, there'⟩
    · exact .inr here

theorem steady (h : disk.Follows disk') (steady : disk.Steady) : disk'.Steady := by
  refine ⟨fun outcome mem => steady.outcomes outcome (h.outcomes outcome mem), ?_, ?_⟩
  · intro segment
    obtain ⟨place, found, vacant⟩ := steady.places segment
    exact ⟨place, (h.places segment).trans found, mt (h.directories place).mpr vacant⟩
  · intro segment opened
    rcases h.opened segment opened with opened | here
    · obtain ⟨place, file, found, there⟩ := steady.opened segment opened
      obtain ⟨file', there'⟩ := h.files place file there
      exact ⟨place, file', (h.places segment).trans found, there'⟩
    · exact here

theorem of_volume {volume : Volume}
    (directories : disk.volume.SameDirectories volume)
    (files : ∀ place file, disk.volume.entryAt place = some (.file file) →
      ∃ file', volume.entryAt place = some (.file file'))
    (outcomes : ∀ outcome ∈ volume.outcomes, outcome ∈ disk.volume.outcomes) :
    disk.Follows { disk with volume } := by
  refine ⟨rfl, directories, fun segment => ?_, files, fun _ => .inl, outcomes⟩
  unfold place?
  rw [SegmentStore.locate_toOption_congr disk.store directories]

theorem of_entries {volume : Volume} (same : volume.entries = disk.volume.entries)
    (outcomes : ∀ outcome ∈ volume.outcomes, outcome ∈ disk.volume.outcomes) :
    disk.Follows { disk with volume } :=
  of_volume (.of_entries same)
    (fun place file there => ⟨file, (Volume.entryAt_congr same place).trans there⟩) outcomes

end Follows

theorem Excused.of_follows {disk disk' : Disk} {fault : StorageFault} (h : disk.Follows disk')
    (excused : disk'.Excused fault) : disk.Excused fault :=
  fun steady => excused (h.steady steady)

section Operations

variable (disk : Disk)

theorem access_serves :
    Ends (onVolume Volume.access) disk (fun _ d => disk.Follows d ∧ d.file = disk.file)
      (fun fault d => disk.Follows d ∧ disk.Excused fault) := by
  refine onVolume_ends ((Volume.access_follows disk.volume).imp ?_ ?_)
  · intro _ volume ended
    rcases ended with ⟨same, outcomes⟩
    exact ⟨.of_entries same outcomes, file_of_entries same⟩
  · intro cause volume ended
    rcases ended with ⟨same, outcomes, refused⟩
    refine ⟨.of_entries same outcomes, fun steady _ _ => ?_⟩
    cases steady.outcomes _ refused

theorem follows_of_opened {segment : SegmentId} {place : Path} {v₁ volume : Volume}
    (closed : disk.store.opened[segment]? = none)
    (same : v₁.entries = disk.volume.entries)
    (outcomes : ∀ outcome ∈ v₁.outcomes, outcome ∈ disk.volume.outcomes)
    (located : disk.store.locate segment v₁ = .ok place)
    (effect : (∃ file, disk.volume.entryAt place = some (.file file)) ∧ volume = v₁ ∨
      disk.volume.entryAt place = none ∧ volume = Volume.put place (.file .empty) v₁) :
    disk.Follows
      ⟨{ disk.store with opened := disk.store.opened.insert segment place.dropLast }, volume⟩ := by
  obtain ⟨-, after⟩ := file_of_opened closed same located
    (effect.imp (fun h => ⟨h.1, h.2 ▸ same⟩) id)
  have before : disk.place? segment = some place := by
    have := SegmentStore.locate_toOption_congr disk.store (.of_entries same) segment
    rw [place?, closed]
    simp only
    rw [this, located]
    rfl
  obtain ⟨directory, named⟩ := place?_ends_in_name before
  have nonempty : place ≠ [] := by simp [named]
  have here : ∃ file, volume.entryAt place = some (.file file) := by
    rcases effect with ⟨⟨file, there⟩, rfl⟩ | ⟨-, rfl⟩
    · exact ⟨file, (Volume.entryAt_congr same place).trans there⟩
    · exact ⟨.empty, by rw [Volume.entryAt_put nonempty, if_pos rfl]⟩
  have follows : disk.Follows { disk with volume } := by
    rcases effect with ⟨-, rfl⟩ | ⟨vacant, rfl⟩
    · exact .of_entries same outcomes
    · have vacant' : v₁.entryAt place ≠ some .directory := by
        rw [Volume.entryAt_congr same, vacant]
        simp
      refine .of_volume ((Volume.SameDirectories.of_entries same).trans
        (Volume.SameDirectories.put_file _ nonempty vacant')) (fun path file there => ?_) outcomes
      have apart : path ≠ place := by
        rintro rfl
        rw [vacant] at there
        cases there
      exact ⟨file, by rw [Volume.entryAt_put nonempty, if_neg apart, Volume.entryAt_congr same,
        there]⟩
  refine ⟨rfl, follows.directories, fun other => ?_, follows.files, ?_, follows.outcomes⟩
  · by_cases here : other = segment
    · rw [here, after, before]
    · rw [← follows.places other]
      simp only [place?, Std.TreeMap.getElem?_insert, Std.LawfulEqCmp.compare_eq_iff_eq,
        Ne.symm here, if_false]
      rfl
  · intro other opened
    rcases Std.TreeMap.mem_insert.mp opened with same | opened
    · obtain rfl := Std.LawfulEqCmp.compare_eq_iff_eq.mp same
      obtain ⟨file, there⟩ := here
      exact .inr ⟨place, file, after, there⟩
    · exact .inl opened

theorem openSegment_serves (segment : SegmentId) :
    Ends (openSegment segment) disk
      (fun _ d => disk.Follows d ∧ segment ∈ d.store.opened)
      (fun fault d => disk.Follows d ∧ disk.Excused fault) := by
  simp only [openSegment, bind_pure_comp, Ends.bind_iff, Ends.get_iff]
  cases opened : disk.store.opened[segment]? with
  | some directory =>
    exact ⟨.refl disk, Std.TreeMap.mem_iff_isSome_getElem?.mpr (by rw [opened]; rfl)⟩
  | none =>
    simp only [Ends.bind_iff]
    refine onVolume_ends ?_
    rw [Volume.openFile, Ends.bind_iff]
    refine (Volume.access_follows disk.volume).imp ?_ ?_
    · intro _ v₁ ended
      rcases ended with ⟨same, outcomes⟩
      have follows : disk.Follows { disk with volume := v₁ } := .of_entries same outcomes
      have place : disk.place? segment = (disk.store.locate segment v₁).toOption := by
        rw [place?, opened]
        exact SegmentStore.locate_toOption_congr disk.store (.of_entries same) segment
      simp only [Ends.bind_iff, Ends.get_iff]
      cases located : disk.store.locate segment v₁ with
      | error cause =>
        refine ⟨follows, fun steady _ _ => ?_⟩
        obtain ⟨path, found, -⟩ := steady.places segment
        rw [place, located] at found
        cases found
      | ok path =>
        simp only [Volume.ofExcept, Ends.pure_iff]
        cases there : v₁.entryAt path with
        | none =>
          refine ⟨follows_of_opened disk opened same outcomes located (.inr ⟨?_, rfl⟩), ?_⟩
          · rw [← Volume.entryAt_congr same]
            exact there
          · exact Std.TreeMap.mem_insert_self
        | some entry =>
          cases entry with
          | directory =>
            refine ⟨follows, fun steady _ _ => ?_⟩
            obtain ⟨path', found, vacant⟩ := steady.places segment
            rw [place, located] at found
            cases found
            exact vacant ((Volume.entryAt_congr same path).symm.trans there)
          | file file =>
            refine ⟨follows_of_opened disk opened same outcomes located (.inl ⟨⟨file, ?_⟩, rfl⟩),
              Std.TreeMap.mem_insert_self⟩
            rw [← Volume.entryAt_congr same]
            exact there
    · intro cause volume ended
      rcases ended with ⟨same, outcomes, refused⟩
      refine ⟨.of_entries same outcomes, fun steady _ _ => ?_⟩
      cases steady.outcomes _ refused

variable {disk} in
theorem excused_of_open {segment : SegmentId} {place : Path} {cause : OsError}
    (found : disk.place? segment = some place) (opened : segment ∈ disk.store.opened)
    (refused : some cause ∈ disk.volume.outcomes ∨
      ∀ file, disk.volume.entryAt place ≠ some (.file file)) :
    disk.Excused (.io (.refused cause)) := by
  intro steady _ _
  rcases refused with refused | missing
  · cases steady.outcomes _ refused
  · obtain ⟨path, file, found', there⟩ := steady.opened segment opened
    rw [found] at found'
    cases found'
    exact missing file there

theorem readPage_serves (page : PageId) :
    Ends (readPage page) disk (fun _ d => disk.Follows d)
      (fun fault d => disk.Follows d ∧ disk.Excused fault) := by
  simp only [readPage, Ends.bind_iff]
  refine ((openSegment_ends page.segment disk).and (openSegment_serves disk page.segment)).imp
    ?_ fun _ _ ended => ended.2
  rintro place d ⟨⟨-, found⟩, follows, opened⟩
  refine onVolume_ends ((Volume.content_follows place d.volume).imp ?_ ?_)
  · rintro file volume ⟨same, outcomes, -⟩
    have follows := follows.trans (.of_entries same outcomes)
    split
    · exact ⟨follows, fun _ _ other => by cases other⟩
    · exact follows
  · rintro cause volume ⟨same, outcomes, refused⟩
    exact ⟨follows.trans (.of_entries same outcomes),
      .of_follows follows (excused_of_open found opened refused)⟩

theorem writePage_serves (page : PageId) (bytes : Page) :
    Ends (writePage page bytes) disk (fun _ d => disk.Follows d)
      (fun fault d => disk.Follows d ∧ disk.Excused fault) := by
  simp only [writePage, Ends.bind_iff]
  refine ((openSegment_ends page.segment disk).and (openSegment_serves disk page.segment)).imp
    ?_ fun _ _ ended => ended.2
  rintro place d ⟨⟨-, found⟩, follows, opened⟩
  refine onVolume_ends ?_
  rw [Volume.mapContent, Ends.bind_iff]
  refine (Volume.content_follows place d.volume).imp ?_ ?_
  · rintro file v ⟨same, outcomes, there⟩
    refine follows.trans (.of_volume ?_ (fun path old before => ?_) outcomes)
    · exact (Volume.SameDirectories.of_entries same).trans
        (.put_file _ (Volume.entryAt_file_ne_nil there) (by rw [there]; simp))
    · rw [Volume.entryAt_put (Volume.entryAt_file_ne_nil there)]
      split
      · exact ⟨_, rfl⟩
      · exact ⟨old, (Volume.entryAt_congr same path).trans before⟩
  · rintro cause volume ⟨same, outcomes, refused⟩
    exact ⟨follows.trans (.of_entries same outcomes),
      .of_follows follows (excused_of_open found opened refused)⟩

theorem sync_serves :
    Ends sync disk (fun _ d => disk.Follows d)
      (fun fault d => disk.Follows d ∧ disk.Excused fault) := by
  simp only [sync, Ends.bind_iff, Ends.get_iff]
  refine Ends.forM_keeps (fun d => disk.Follows d) (.refl disk) fun _ _ d follows => ?_
  refine (access_serves d).imp ?_ ?_
  · rintro _ d' ⟨follows', -⟩
    exact follows.trans follows'
  · rintro fault d' ⟨follows', excused⟩
    exact ⟨follows.trans follows', excused.of_follows follows⟩

end Operations

section Lengths

variable {disk disk' : Disk} {page other : PageId} {bytes : Page}

theorem holds_congr (files : disk'.file = disk.file) : disk'.Holds page ↔ disk.Holds page := by
  rw [Holds, Holds, files]

theorem holds_written (files : disk'.file = Function.update disk.file page.segment
    ((disk.file page.segment).write page.pageNo bytes)) : disk'.Holds page := by
  rw [Holds, files, Function.update_self]
  exact Nat.le_max_right _ _

theorem holds_of_write (files : disk'.file = Function.update disk.file page.segment
    ((disk.file page.segment).write page.pageNo bytes)) (holds : disk.Holds other) :
    disk'.Holds other := by
  rw [Holds, files]
  by_cases same : other.segment = page.segment
  · rw [same, Function.update_self]
    exact Nat.le_trans (same ▸ holds) (Nat.le_max_left _ _)
  · rw [Function.update_of_ne same]
    exact holds

end Lengths

/-- The directory is where its name leads, and open files are where they would be opened. -/
structure Attached (disk : Disk) : Prop where
  directory : disk.volume.lookup disk.store.directory = .ok .directory
  places : ∀ segment, disk.place? segment =
    (disk.store.locate segment disk.volume).toOption

end Disk

namespace Volume

theorem lookup_directory_iff {volume : Volume} {path : String} :
    volume.lookup path = .ok .directory ↔ ∃ place,
      (volume.resolveEntry path).toOption = some place ∧
        volume.entryAt place = some .directory := by
  unfold lookup
  cases volume.resolveEntry path with
  | error cause => simp [bind, Except.bind, Except.toOption]
  | ok place =>
    simp only [bind, Except.bind, Except.toOption, Option.some.injEq, exists_eq_left']
    cases volume.entryAt place with
    | none => simp [throw, throwThe, MonadExceptOf.throw]
    | some entry => simp [pure, Except.pure]

theorem resolveEntry_toOption_congr {volume volume' : Volume}
    (h : SameDirectories volume volume') (path : String) :
    (volume.resolveEntry path).toOption = (volume'.resolveEntry path).toOption := by
  have resolved := resolve_toOption_congr h path
  unfold resolveEntry
  cases hr : volume.resolve path with
  | error cause =>
    cases hr' : volume'.resolve path with
    | error cause' => simp [bind, Except.bind, Except.toOption]
    | ok place => simp_all [Except.toOption]
  | ok place =>
    cases hr' : volume'.resolve path with
    | error cause' => simp_all [Except.toOption]
    | ok place' =>
      have same : place = place' := by simpa [hr, hr', Except.toOption] using resolved
      subst same
      simp only [bind, Except.bind]
      split
      · exact step_toOption_congr h place "."
      · rfl

theorem SameDirectories.lookup {volume volume' : Volume} (h : SameDirectories volume volume')
    {path : String} (found : volume.lookup path = .ok .directory) :
    volume'.lookup path = .ok .directory := by
  obtain ⟨place, resolved, there⟩ := lookup_directory_iff.mp found
  exact lookup_directory_iff.mpr ⟨place,
    (resolveEntry_toOption_congr h path).symm.trans resolved, (h place).mp there⟩

end Volume

namespace Disk

open SegmentStore (fileName)

variable {disk disk' : Disk}

theorem Follows.attached (h : disk.Follows disk') (attached : disk.Attached) : disk'.Attached := by
  have located (segment : SegmentId) : disk'.store.locate segment = disk.store.locate segment := by
    funext volume
    simp [SegmentStore.locate, h.directory]
  refine ⟨by rw [h.directory]; exact h.directories.lookup attached.directory, fun segment => ?_⟩
  rw [h.places, attached.places, located]
  exact SegmentStore.locate_toOption_congr disk.store h.directories segment

/-- The disk as a store finds it that is attached to the same directory. -/
def reattached (disk : Disk) : Disk := ⟨⟨disk.store.directory, ∅⟩, disk.volume⟩

namespace Attached

theorem attach_eq (h : disk.Attached) :
    (SegmentStore.attach disk.store.directory).run disk.volume =
      .ok disk.reattached.store disk.reattached.volume := by
  rw [SegmentStore.attach, EStateM.run_bind, EStateM.run_get]
  simp only [h.directory]
  rfl

theorem place_reattached (h : disk.Attached) (segment : SegmentId) :
    disk.reattached.place? segment = disk.place? segment := by
  rw [h.places, place?, reattached]
  simp [SegmentStore.locate]

theorem file_reattached (h : disk.Attached) : disk.reattached.file = disk.file := by
  funext segment
  rw [file, file, h.place_reattached]
  rfl

theorem steady_reattached (h : disk.Attached) (steady : disk.Steady) : disk.reattached.Steady := by
  refine ⟨steady.outcomes, fun segment => ?_, fun segment opened => ?_⟩
  · rw [h.place_reattached]
    exact steady.places segment
  · simp [Disk.reattached] at opened

theorem of_closed {store : SegmentStore} {volume : Volume} (closed : store.opened = ∅)
    (found : volume.lookup store.directory = .ok .directory) : Attached ⟨store, volume⟩ := by
  refine ⟨found, fun segment => ?_⟩
  rw [place?, closed]
  simp

end Attached

/-- A directory with the open files of two segments. The first holds a page. -/
def twoFiles : Disk :=
  ⟨⟨"db", ((∅ : Std.TreeMap SegmentId Path).insert ⟨0⟩ ["db"]).insert ⟨1⟩ ["db"]⟩,
    ⟨(((∅ : Std.TreeMap Path Entry).insert ["db"] .directory).insert ["db", "segment_0.db"]
      (.file (File.empty.write 0 Page.zeroed))).insert ["db", "segment_1.db"] (.file .empty), []⟩⟩

theorem resolve_twoFiles : twoFiles.volume.resolve "db" = .ok ["db"] := by
  have names : Volume.names "db" = ["db"] := by
    rw [Volume.names, String.splitOn, if_neg (by decide)]
    -- Neither letter is a slash, and then the name is at its end.
    rw [String.splitOnAux, if_neg (by decide +kernel), if_neg (by decide +kernel),
      String.splitOnAux, if_neg (by decide +kernel), if_neg (by decide +kernel),
      String.splitOnAux, if_pos (by decide +kernel)]
    decide +kernel
  rw [Volume.resolve, if_neg (by decide), Volume.walk, names]
  rfl

theorem locate_twoFiles (segment : SegmentId) :
    (twoFiles.store.locate segment twoFiles.volume).toOption = some ["db", fileName segment] := by
  rw [SegmentStore.locate, show twoFiles.store.directory = "db" from rfl, resolve_twoFiles]
  rfl

theorem mem_twoFiles {segment : SegmentId} {directory : Path}
    (opened : twoFiles.store.opened[segment]? = some directory) :
    directory = ["db"] ∧ (segment = ⟨0⟩ ∨ segment = ⟨1⟩) := by
  simp only [twoFiles, Std.TreeMap.getElem?_insert, Std.LawfulEqCmp.compare_eq_iff_eq] at opened
  split at opened
  · rename_i one
    exact ⟨(Option.some.inj opened).symm, .inr one.symm⟩
  · split at opened
    · rename_i zero
      exact ⟨(Option.some.inj opened).symm, .inl zero.symm⟩
    · simp at opened

theorem place_twoFiles (segment : SegmentId) :
    twoFiles.place? segment = some ["db", fileName segment] := by
  rw [place?]
  cases opened : twoFiles.store.opened[segment]? with
  | none => exact locate_twoFiles segment
  | some directory => rw [(mem_twoFiles opened).1]; rfl

theorem attached_twoFiles : twoFiles.Attached := by
  refine ⟨Volume.lookup_directory_iff.mpr ⟨["db"], ?_, rfl⟩,
    fun segment => (place_twoFiles segment).trans (locate_twoFiles segment).symm⟩
  have no_slash : "db".endsWith "/" = false := by decide +kernel
  rw [Volume.resolveEntry, show twoFiles.store.directory = "db" from rfl, resolve_twoFiles]
  simp only [bind, Except.bind, no_slash]
  rfl

theorem steady_twoFiles : twoFiles.Steady := by
  refine ⟨nofun, fun segment => ⟨_, place_twoFiles segment, ?_⟩, fun segment opened => ?_⟩
  · have apart : (["db"] : Path) ≠ ["db", fileName segment] := by simp
    simp only [twoFiles, Volume.entryAt, List.cons_ne_nil, if_false, Std.TreeMap.getElem?_insert,
      Std.LawfulEqCmp.compare_eq_iff_eq, apart]
    split
    · simp
    · split
      · simp
      · simp
  · obtain ⟨directory, opened⟩ := Option.isSome_iff_exists.mp
      (Std.TreeMap.mem_iff_isSome_getElem?.mp opened)
    rcases (mem_twoFiles opened).2 with rfl | rfl
    · exact ⟨_, _, place_twoFiles _, rfl⟩
    · exact ⟨_, _, place_twoFiles _, rfl⟩

end Disk

end PagedIndex
