import Mathlib.Logic.Function.Basic
import PagedIndex.Disk
import PagedIndex.Proofs.Ends
import Std.Data.String.ToNat

/-!
# What the pages on a disk read as

`Disk.file` is the file of each segment whether or not it is open yet, and `Disk.content` the page
at each page id, zero where no file reaches. Opening a file changes neither; a write changes one
page. A refused access changes nothing. Directories stay where they are, so the place of a file
that is not open yet stays too.
-/

namespace PagedIndex

namespace Volume

theorem member_eq_ok_iff {volume : Volume} {path place : Path} {name : String} :
    volume.member path name = .ok place ↔
      volume.entryAt path = some .directory ∧ place = path ++ [name] := by
  unfold member
  cases h : volume.entryAt path with
  | none => simp
  | some entry => cases entry <;> simp [eq_comm]

def SameDirectories (volume volume' : Volume) : Prop :=
  ∀ path, volume.entryAt path = some .directory ↔ volume'.entryAt path = some .directory

theorem entryAt_congr {volume volume' : Volume} (h : volume'.entries = volume.entries)
    (path : Path) : volume'.entryAt path = volume.entryAt path := by
  simp [entryAt, h]

theorem SameDirectories.of_entries {volume volume' : Volume}
    (h : volume'.entries = volume.entries) : SameDirectories volume volume' := by
  intro path
  rw [entryAt_congr h]

theorem SameDirectories.trans {volume volume' volume'' : Volume}
    (h : SameDirectories volume volume') (h' : SameDirectories volume' volume'') :
    SameDirectories volume volume'' := fun path => (h path).trans (h' path)

theorem member_toOption_congr {volume volume' : Volume} (h : SameDirectories volume volume')
    (path : Path) (name : String) :
    (volume.member path name).toOption = (volume'.member path name).toOption := by
  have same (place : Path) :
      volume.member path name = .ok place ↔ volume'.member path name = .ok place := by
    rw [member_eq_ok_iff, member_eq_ok_iff, h path]
  cases hm : volume.member path name <;> cases hm' : volume'.member path name <;>
    simp_all [Except.toOption]

theorem step_toOption_congr {volume volume' : Volume} (h : SameDirectories volume volume')
    (path : Path) (name : String) :
    (volume.step path name).toOption = (volume'.step path name).toOption := by
  have member := member_toOption_congr h path name
  unfold step
  cases hm : volume.member path name <;> cases hm' : volume'.member path name <;>
    simp_all [Except.toOption, bind, Except.bind, pure, Except.pure]

theorem walk_toOption_congr {volume volume' : Volume} (h : SameDirectories volume volume')
    (names : List String) : (volume.walk names).toOption = (volume'.walk names).toOption := by
  suffices ∀ path, (names.foldlM volume.step path).toOption =
      (names.foldlM volume'.step path).toOption from this []
  induction names with
  | nil => intro path; rfl
  | cons name rest ih =>
    intro path
    have first := step_toOption_congr h path name
    simp only [List.foldlM_cons]
    cases hs : volume.step path name <;> cases hs' : volume'.step path name <;>
      simp_all [Except.toOption, bind, Except.bind]

theorem resolve_toOption_congr {volume volume' : Volume} (h : SameDirectories volume volume')
    (path : String) : (volume.resolve path).toOption = (volume'.resolve path).toOption := by
  unfold resolve
  split
  · rfl
  · exact walk_toOption_congr h _

theorem entryAt_put {volume : Volume} {place : Path} {entry : Entry} (h : place ≠ [])
    (path : Path) :
    (put place entry volume).entryAt path =
      if path = place then some entry else volume.entryAt path := by
  unfold entryAt put
  by_cases root : path = []
  · rw [if_pos root, if_pos root, if_neg (fun e => h (e.symm.trans root))]
  · rw [if_neg root, if_neg root, Std.TreeMap.getElem?_insert]
    by_cases same : path = place
    · subst same; simp
    · rw [if_neg same, if_neg (fun e => same (Std.LawfulEqCmp.compare_eq_iff_eq.mp e).symm)]

theorem SameDirectories.put_file {volume : Volume} {place : Path} (file : File) (h : place ≠ [])
    (vacant : volume.entryAt place ≠ some .directory) :
    SameDirectories volume (put place (.file file) volume) := by
  intro path
  rw [entryAt_put h]
  by_cases same : path = place
  · subst same; simp [vacant]
  · rw [if_neg same]

theorem access_ends (volume : Volume) :
    Ends access volume (fun _ v => v.entries = volume.entries)
      (fun _ v => v.entries = volume.entries) := by
  unfold Ends access EStateM.run
  rcases h : volume.outcomes with _ | ⟨_ | cause, rest⟩ <;> simp [h]

theorem openFile_ends (locate : Volume → Except OsError Path) (volume : Volume) :
    Ends (openFile locate) volume
      (fun place v => ∃ v₁ : Volume, v₁.entries = volume.entries ∧ locate v₁ = .ok place ∧
        ((∃ file, volume.entryAt place = some (.file file)) ∧ v.entries = volume.entries ∨
          volume.entryAt place = none ∧ v = put place (.file .empty) v₁))
      (fun _ v => v.entries = volume.entries) := by
  rw [openFile, Ends.bind_iff]
  refine (access_ends volume).imp (fun _ v₁ same => ?_) (fun _ _ h => h)
  simp only [Ends.bind_iff, Ends.get_iff]
  cases found : locate v₁ with
  | error cause => exact same
  | ok place =>
    simp only [ofExcept, Ends.pure_iff, entryAt_congr same place]
    cases there : volume.entryAt place with
    | none => exact ⟨v₁, same, found, .inr ⟨there, rfl⟩⟩
    | some entry =>
      cases entry with
      | directory => exact same
      | file file => exact ⟨v₁, same, found, .inl ⟨⟨file, there⟩, same⟩⟩

theorem content_ends (place : Path) (volume : Volume) :
    Ends (content place) volume
      (fun file v => v.entries = volume.entries ∧ volume.entryAt place = some (.file file))
      (fun _ v => v.entries = volume.entries) := by
  rw [content, Ends.bind_iff]
  refine (access_ends volume).imp (fun _ v same => ?_) (fun _ _ h => h)
  simp only [Ends.bind_iff, Ends.get_iff, entryAt_congr same place]
  cases there : volume.entryAt place with
  | none => exact same
  | some entry =>
    cases entry with
    | directory => exact same
    | file file => exact ⟨same, rfl⟩

theorem mapContent_ends (place : Path) (f : File → File) (volume : Volume) :
    Ends (mapContent place f) volume
      (fun _ v => ∃ v₁ file, v₁.entries = volume.entries ∧
        volume.entryAt place = some (.file file) ∧ v = put place (.file (f file)) v₁)
      (fun _ v => v.entries = volume.entries) := by
  rw [mapContent, Ends.bind_iff]
  refine (content_ends place volume).imp (fun file v₁ h => ?_) (fun _ _ h => h)
  exact ⟨v₁, file, h.1, h.2, rfl⟩

end Volume

namespace SegmentStore

theorem fileName_inj {segment segment' : SegmentId} (h : fileName segment = fileName segment') :
    segment = segment' := by
  obtain ⟨number⟩ := segment
  obtain ⟨number'⟩ := segment'
  have digits : toString number = toString number' := by simpa [fileName] using h
  exact congrArg SegmentId.mk (UInt16.toNat_inj.mp (Nat.repr_injective digits))

theorem locate_toOption_congr {volume volume' : Volume} (store : SegmentStore)
    (h : volume.SameDirectories volume') (segment : SegmentId) :
    (store.locate segment volume).toOption = (store.locate segment volume').toOption := by
  have resolved := Volume.resolve_toOption_congr h store.directory
  have member (path : Path) : (volume.member path (fileName segment)).toOption =
      (volume'.member path (fileName segment)).toOption :=
    Volume.member_toOption_congr h path _
  unfold locate
  cases hr : volume.resolve store.directory <;> cases hr' : volume'.resolve store.directory <;>
    simp_all [Except.toOption, bind, Except.bind]

end SegmentStore

namespace Disk

open SegmentStore (fileName)

/-- The place of a segment's file: where it is open, or else where it would be opened. -/
def place? (disk : Disk) (segment : SegmentId) : Option Path :=
  match disk.store.opened[segment]? with
  | some directory => some (directory ++ [fileName segment])
  | none => (disk.store.locate segment disk.volume).toOption

def file (disk : Disk) (segment : SegmentId) : File :=
  match (disk.place? segment).bind disk.volume.entryAt with
  | some (.file file) => file
  | _ => .empty

/-- What a page reads as once its file reaches it. -/
def content (disk : Disk) (page : PageId) : Page := (disk.file page.segment).page page.pageNo

/-- A page that the segment's file reaches to the end of. -/
def Holds (disk : Disk) (page : PageId) : Prop :=
  (page.pageNo + 1) * pageSize ≤ (disk.file page.segment).length

theorem place?_ends_in_name {disk : Disk} {segment : SegmentId} {place : Path}
    (h : disk.place? segment = some place) :
    ∃ directory, place = directory ++ [fileName segment] := by
  unfold place? at h
  cases opened : disk.store.opened[segment]? with
  | some directory => rw [opened] at h; exact ⟨directory, (Option.some.inj h).symm⟩
  | none =>
    rw [opened] at h
    cases resolved : disk.volume.resolve disk.store.directory with
    | error cause => simp [SegmentStore.locate, resolved, bind, Except.bind, Except.toOption] at h
    | ok directory =>
      have located : disk.volume.member directory (fileName segment) = .ok place := by
        cases hm : disk.volume.member directory (fileName segment) <;>
          simp_all [SegmentStore.locate, bind, Except.bind, Except.toOption]
      exact ⟨directory, (Volume.member_eq_ok_iff.mp located).2⟩

theorem place?_inj {disk disk' : Disk} {segment segment' : SegmentId} {place : Path}
    (h : disk.place? segment = some place) (h' : disk'.place? segment' = some place) :
    segment = segment' := by
  obtain ⟨directory, rfl⟩ := place?_ends_in_name h
  obtain ⟨directory', same⟩ := place?_ends_in_name h'
  have last := congrArg List.getLast? same
  simp only [List.getLast?_concat, Option.some.injEq] at last
  exact SegmentStore.fileName_inj last

theorem onVolume_ends {α : Type} {action : VolumeM α} {disk : Disk} {done : α → Disk → Prop}
    {failed : StorageFault → Disk → Prop}
    (h : Ends action disk.volume (fun a volume => done a { disk with volume })
      (fun cause volume => failed (.io (.refused cause)) { disk with volume })) :
    Ends (onVolume action) disk done failed := by
  simp only [Ends, onVolume, EStateM.run] at *
  cases run : action disk.volume <;> simp only [run] at h ⊢ <;> exact h

theorem file_of_entries {disk : Disk} {volume : Volume}
    (entries : volume.entries = disk.volume.entries) :
    (⟨disk.store, volume⟩ : Disk).file = disk.file := by
  funext segment
  have place : (⟨disk.store, volume⟩ : Disk).place? segment = disk.place? segment := by
    unfold place?
    rw [SegmentStore.locate_toOption_congr disk.store (.of_entries entries)]
  unfold file
  rw [place]
  cases disk.place? segment with
  | none => rfl
  | some place => simp only [Option.bind_some, Volume.entryAt_congr entries]

theorem file_eq_of_elsewhere {disk disk' : Disk} {segment other : SegmentId} {place : Path}
    (there : disk'.place? segment = some place) (ne : other ≠ segment)
    (store : disk'.store.directory = disk.store.directory)
    (opened : disk'.store.opened[other]? = disk.store.opened[other]?)
    (directories : disk'.volume.SameDirectories disk.volume)
    (entries : ∀ path, path ≠ place → disk'.volume.entryAt path = disk.volume.entryAt path) :
    disk'.file other = disk.file other := by
  have same : disk'.place? other = disk.place? other := by
    unfold place?
    have located : disk'.store.locate other = disk.store.locate other := by
      funext volume
      simp [SegmentStore.locate, store]
    rw [opened, located, SegmentStore.locate_toOption_congr disk.store directories]
  unfold file
  rw [same]
  cases found : disk.place? other with
  | none => rfl
  | some path =>
    have apart : path ≠ place := fun e => ne (place?_inj (found.trans (e ▸ rfl)) there)
    simp only [Option.bind_some, entries path apart]

theorem file_of_opened {disk : Disk} {segment : SegmentId} {place : Path} {volume v₁ : Volume}
    (closed : disk.store.opened[segment]? = none) (same : v₁.entries = disk.volume.entries)
    (located : disk.store.locate segment v₁ = .ok place)
    (effect : (∃ file, disk.volume.entryAt place = some (.file file)) ∧
        volume.entries = disk.volume.entries ∨
      disk.volume.entryAt place = none ∧ volume = Volume.put place (.file .empty) v₁) :
    let d : Disk :=
      ⟨{ disk.store with opened := disk.store.opened.insert segment place.dropLast }, volume⟩
    d.file = disk.file ∧ d.place? segment = some place := by
  intro d
  have before : disk.place? segment = some place := by
    have := SegmentStore.locate_toOption_congr disk.store (.of_entries same) segment
    rw [place?, closed]
    simp only
    rw [this, located]
    rfl
  obtain ⟨directory, rfl⟩ := place?_ends_in_name before
  have after : d.place? segment = some (directory ++ [fileName segment]) := by
    simp [d, place?]
  have nonempty : directory ++ [fileName segment] ≠ [] := by simp
  have entries (path : Path) (apart : path ≠ directory ++ [fileName segment]) :
      volume.entryAt path = disk.volume.entryAt path := by
    rcases effect with ⟨_, kept⟩ | ⟨_, rfl⟩
    · exact Volume.entryAt_congr kept path
    · rw [Volume.entryAt_put nonempty, if_neg apart, Volume.entryAt_congr same]
  have directories : volume.SameDirectories disk.volume := by
    rcases effect with ⟨_, kept⟩ | ⟨vacant, rfl⟩
    · exact .of_entries kept.symm
    · have vacant' : v₁.entryAt (directory ++ [fileName segment]) ≠ some .directory := by
        rw [Volume.entryAt_congr same, vacant]
        simp
      intro path
      rw [← Volume.SameDirectories.put_file _ nonempty vacant' path, Volume.entryAt_congr same]
  refine ⟨?_, after⟩
  funext other
  by_cases here : other = segment
  · subst here
    rw [file, file, before, after]
    rcases effect with ⟨⟨file, there⟩, kept⟩ | ⟨vacant, rfl⟩
    · simp [d, Volume.entryAt_congr kept]
    · simp [d, Volume.entryAt_put nonempty, vacant]
  · refine file_eq_of_elsewhere after here rfl ?_ directories entries
    simp [d, Std.TreeMap.getElem?_insert, Ne.symm here]

theorem file_of_changed {disk : Disk} {segment : SegmentId} {place : Path} {volume : Volume}
    {old new : File} (there : disk.place? segment = some place)
    (entry : disk.volume.entryAt place = some (.file old))
    (same : volume.entries = disk.volume.entries) :
    (⟨disk.store, Volume.put place (.file new) volume⟩ : Disk).file =
      Function.update disk.file segment new := by
  obtain ⟨directory, rfl⟩ := place?_ends_in_name there
  have nonempty : directory ++ [fileName segment] ≠ [] := by simp
  have vacant : volume.entryAt (directory ++ [fileName segment]) ≠ some .directory := by
    rw [Volume.entryAt_congr same, entry]
    simp
  have directories := (Volume.SameDirectories.of_entries same).trans
    (Volume.SameDirectories.put_file new nonempty vacant)
  have place : (⟨disk.store, Volume.put (directory ++ [fileName segment]) (.file new) volume⟩ :
      Disk).place? segment = some (directory ++ [fileName segment]) := by
    rw [← there, place?, place?, SegmentStore.locate_toOption_congr disk.store directories]
  funext other
  by_cases here : other = segment
  · subst here
    rw [Function.update_self, file, place]
    simp [Volume.entryAt_put nonempty]
  · rw [Function.update_of_ne here]
    refine file_eq_of_elsewhere place here rfl rfl (fun path => (directories path).symm) ?_
    intro path apart
    change (Volume.put _ _ volume).entryAt path = _
    rw [Volume.entryAt_put nonempty, if_neg apart, Volume.entryAt_congr same]

theorem openSegment_ends (segment : SegmentId) (disk : Disk) :
    Ends (openSegment segment) disk
      (fun place d => d.file = disk.file ∧ d.place? segment = some place)
      (fun fault d => d.file = disk.file ∧ ∃ cause, fault = .io (.refused cause)) := by
  simp only [openSegment, bind_pure_comp, Ends.bind_iff, Ends.get_iff]
  cases opened : disk.store.opened[segment]? with
  | some directory => exact ⟨rfl, by simp [place?, opened]⟩
  | none =>
    simp only [Ends.bind_iff]
    refine onVolume_ends ((Volume.openFile_ends _ disk.volume).imp ?_ ?_)
    · intro place volume ended
      rcases ended with ⟨v₁, same, located, effect⟩
      exact file_of_opened opened same located effect
    · intro cause volume same
      exact ⟨file_of_entries same, cause, rfl⟩

theorem readPage_ends (page : PageId) (disk : Disk) :
    Ends (readPage page) disk
      (fun bytes d => d.file = disk.file ∧ disk.Holds page ∧ bytes = disk.content page)
      (fun fault d => d.file = disk.file ∧
        (fault = .pageNotFound page ∧ ¬ disk.Holds page ∨
          ∃ cause, fault = .io (.refused cause))) := by
  simp only [readPage, Ends.bind_iff]
  refine (openSegment_ends page.segment disk).imp ?_ ?_
  · intro place d ended
    rcases ended with ⟨files, there⟩
    refine onVolume_ends ((Volume.content_ends place d.volume).imp ?_ ?_)
    · intro file volume ended
      rcases ended with ⟨entries, entry⟩
      have kept : (⟨d.store, volume⟩ : Disk).file = disk.file :=
        (file_of_entries entries).trans files
      have read : disk.file page.segment = file := by
        rw [← files, Disk.file, there]
        simp [entry]
      by_cases short : file.length < (page.pageNo + 1) * pageSize
      · rw [if_pos short]
        exact ⟨kept, .inl ⟨rfl, by rw [Holds, read]; omega⟩⟩
      · rw [if_neg short]
        exact ⟨kept, by rw [Holds, read]; omega, by rw [content, read]⟩
    · intro cause volume entries
      exact ⟨(file_of_entries entries).trans files, .inr ⟨cause, rfl⟩⟩
  · intro fault d ended
    rcases ended with ⟨files, refused⟩
    exact ⟨files, .inr refused⟩

theorem writePage_ends (page : PageId) (bytes : Page) (disk : Disk) :
    Ends (writePage page bytes) disk
      (fun _ d => d.file = Function.update disk.file page.segment
        ((disk.file page.segment).write page.pageNo bytes))
      (fun fault d => d.file = disk.file ∧ ∃ cause, fault = .io (.refused cause)) := by
  simp only [writePage, Ends.bind_iff]
  refine (openSegment_ends page.segment disk).imp ?_ (fun _ _ h => h)
  intro place d ended
  rcases ended with ⟨files, there⟩
  refine onVolume_ends ((Volume.mapContent_ends place _ d.volume).imp ?_ ?_)
  · rintro - volume ⟨v₁, file, entries, entry, rfl⟩
    have old : disk.file page.segment = file := by
      rw [← files, Disk.file, there]
      simp [entry]
    rw [old, ← files]
    exact file_of_changed there entry entries
  · intro cause volume entries
    exact ⟨(file_of_entries entries).trans files, cause, rfl⟩

theorem sync_ends (disk : Disk) :
    Ends sync disk (fun _ d => d.file = disk.file)
      (fun fault d => d.file = disk.file ∧ ∃ cause, fault = .io (.refused cause)) := by
  simp only [sync, Ends.bind_iff, Ends.get_iff]
  apply Ends.forM_keeps (fun d : Disk => d.file = disk.file) rfl
  intro _ _ d files
  refine onVolume_ends ((Volume.access_ends d.volume).imp ?_ ?_)
  · intro _ volume entries
    exact (file_of_entries entries).trans files
  · intro cause volume entries
    exact ⟨(file_of_entries entries).trans files, cause, rfl⟩

end Disk

theorem File.page_write (file : File) (number other : Nat) (bytes : Page) :
    (file.write number bytes).page other = if other = number then bytes else file.page other := by
  by_cases same : number = other <;> simp [File.page, File.write, Std.TreeMap.getElem?_insert, same]
  simp [Ne.symm same]

theorem PageId.eq_of_parts {page page' : PageId} (segment : page.segment = page'.segment)
    (pageNo : page.pageNo = page'.pageNo) : page = page' := by
  rw [← ofParts_segment_pageNo page, segment, pageNo, ofParts_segment_pageNo]

namespace Disk

theorem content_congr {disk disk' : Disk} (files : disk'.file = disk.file) :
    disk'.content = disk.content := by
  funext page
  rw [content, content, files]

/-- A written page reads as what was written, every other page as before. -/
theorem content_of_write {disk disk' : Disk} {page : PageId} {bytes : Page}
    (files : disk'.file = Function.update disk.file page.segment
      ((disk.file page.segment).write page.pageNo bytes)) :
    disk'.content = Function.update disk.content page bytes := by
  funext other
  rw [content, files]
  by_cases segment : other.segment = page.segment
  · rw [segment, Function.update_self, File.page_write]
    by_cases number : other.pageNo = page.pageNo
    · rw [if_pos number, PageId.eq_of_parts segment number, Function.update_self]
    · have apart : other ≠ page := fun e => number (e ▸ rfl)
      rw [if_neg number, Function.update_of_ne apart, content, segment]
  · have apart : other ≠ page := fun e => segment (e ▸ rfl)
    rw [Function.update_of_ne segment, Function.update_of_ne apart, content]

end Disk

end PagedIndex
