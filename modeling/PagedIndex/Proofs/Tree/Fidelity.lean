import PagedIndex.Proofs.Tree.Alike
import PagedIndex.Proofs.Tree.Ideal
import PagedIndex.Proofs.Tree.InOrder
import PagedIndex.Proofs.Tree.Reading

/-!
# Calls come to what they come to on an ideal store

A call asks for pages of its tree only. While these are in frames or on disk it comes to what it
comes to on an ideal store, whichever frames they are in and however often they are evicted. It can
tell the difference only where the disk refuses or three frames cannot be had: it then fails, and
the pages stay where they can be had.
-/

namespace PagedIndex

open Access

variable {K V : Type} [IndexKey K]

/-- The disk is at fault, or no three frames can be had beside those that have pins. -/
def Storage.Strained (s : Storage) (failure : Failure) : Prop :=
  s.disk.Blamed failure ∨
    failure = .error (.storage .noFreeFrames) ∧ s.pool.size < s.pool.pinnedFrameCount + 3

/-- The tree's own pages were handed out, can be had and lead to no others. No page is in a frame
before it is handed out. -/
structure Tree.Lodged (tree : Tree K V) (own : PageId → Prop) (footing : Footing) : Prop where
  coherent : footing.storage.Coherent .nothing
  backed : footing.storage.Backed
  counter : footing.anchor.nextPageNo ≤ maxPageNo + 1
  root : ∀ root, footing.anchor.root = some root → own root
  minted : ∀ page, own page → Minted tree.segment footing.anchor.nextPageNo page
  available : ∀ page, own page → footing.storage.Available page
  linked : ∀ page, own page →
    tree.capacities.Linked K own (footing.storage.content page)
  residents : ∀ page ∈ footing.storage.pool.table, page.segment = tree.segment →
    page.pageNo < footing.anchor.nextPageNo

def Hold.after (mark : Nat) (hold : Hold) : Hold := { hold with guard := ⟨mark + hold.guard.index⟩ }

def GuardId.After (mark : Nat) (id id' : GuardId) : Prop := id.index = mark + id'.index

/-- During a call that began on `start`: the tree's own pages read as on the ideal store, and are
under the same guards. -/
structure Tree.Mirrors (tree : Tree K V) (start : Storage) (own : PageId → Prop) (footing : Footing)
    (ideal : Ideal) : Prop where
  began : start.Coherent .nothing
  free : ∀ guard ∈ start.pool.guards, guard.page.segment ≠ tree.segment
  lodged : tree.Lodged own footing
  lasts : start.Lasts (·.segment = tree.segment) (fun _ => False) footing.storage
  elsewhere : ∀ page, page.segment ≠ tree.segment →
    footing.storage.content page = start.content page
  anchor : footing.anchor = ideal.anchor
  content : ∀ page, own page → footing.storage.content page = ideal.content page
  guards : ∃ mine, footing.storage.pool.guards = mine ++ start.pool.guards ∧
    mine.map Guard.hold = ideal.holds.map (Hold.after start.pool.nextGuard)
  held : ∀ hold ∈ ideal.holds, own hold.page
  nextGuard : footing.storage.pool.nextGuard = start.pool.nextGuard + ideal.nextGuard
  size : footing.storage.pool.size = start.pool.size

theorem Tree.Lodged.of_lasts {tree : Tree K V} {own came gone : PageId → Prop} {footing : Footing}
    {storage : Storage} (h : tree.Lodged own footing) (coherent : storage.Coherent .nothing)
    (lasts : footing.storage.Lasts came gone storage) (keeps : ∀ page, own page → ¬ gone page)
    (known : ∀ page, came page → page.segment = tree.segment →
      page.pageNo < footing.anchor.nextPageNo)
    (content : ∀ page, own page → storage.content page = footing.storage.content page) :
    tree.Lodged own { footing with storage } := by
  refine { h with
      coherent, backed := lasts.backed, available := ?available, linked := ?linked,
      residents := ?residents }
  case available =>
    exact fun page mem =>
      (lasts.available page (h.available page mem)).resolve_left (keeps page mem)
  case linked =>
    intro page mem
    rw [content page mem]
    exact h.linked page mem
  case residents =>
    intro page resident here
    rcases lasts.residents page resident with resident | came
    · exact h.residents page resident here
    · exact known page came here

theorem Tree.Lodged.of_zeroed {tree : Tree K V} {own : PageId → Prop} {footing : Footing}
    {page : PageId} (h : tree.Lodged own footing)
    (known : Minted tree.segment footing.anchor.nextPageNo page)
    (available : footing.storage.Available page)
    (zeroed : footing.storage.content page = Page.zeroed) :
    tree.Lodged (fun other => own other ∨ other = page) footing := by
  refine { h with
    root := fun root anchored => .inl (h.root root anchored)
    minted := ?_, available := ?_, linked := ?_ }
  · rintro other (mem | rfl)
    · exact h.minted other mem
    · exact known
  · rintro other (mem | rfl)
    · exact h.available other mem
    · exact available
  · rintro other (mem | rfl)
    · exact (h.linked other mem).mono fun _ => .inl
    · rw [zeroed]
      exact Capacities.Linked.zeroed

namespace Tree.Mirrors

variable {tree : Tree K V} {start : Storage} {own own' : PageId → Prop} {footing footing' : Footing}
  {ideal ideal' : Ideal} {latch : Latch} {page : PageId}

theorem guard_of_hold (h : tree.Mirrors start own footing ideal) {hold : Hold}
    (mem : hold ∈ ideal.holds) : ∃ guard ∈ footing.storage.pool.guards,
      guard.hold = hold.after start.pool.nextGuard := by
  obtain ⟨mine, guards, same⟩ := h.guards
  have listed := List.mem_map_of_mem (f := Hold.after start.pool.nextGuard) mem
  rw [← same] at listed
  obtain ⟨guard, mem, told⟩ := List.mem_map.mp listed
  exact ⟨guard, guards ▸ List.mem_append_left _ mem, told⟩

theorem numbers (h : tree.Mirrors start own footing ideal) {hold : Hold}
    (mem : hold ∈ ideal.holds) : hold.guard.index < ideal.nextGuard := by
  obtain ⟨guard, listed, told⟩ := h.guard_of_hold mem
  have older := h.lodged.coherent.pool.guard_numbers guard listed
  have number : guard.id.index = start.pool.nextGuard + hold.guard.index :=
    congrArg (·.guard.index) told
  rw [number, h.nextGuard] at older
  omega

theorem fresh (h : tree.Mirrors start own footing ideal) :
    ∀ hold ∈ ideal.holds, hold.guard ≠ ⟨ideal.nextGuard⟩ := by
  intro hold mem same
  have older := h.numbers mem
  rw [same] at older
  exact Nat.lt_irrefl _ older

theorem blocked_iff (h : tree.Mirrors start own footing ideal) (mem : own page) :
    footing.storage.pool.Blocked latch page ↔ ideal.Blocked latch page := by
  obtain ⟨mine, guards, same⟩ := h.guards
  have here := (h.lodged.minted page mem).1
  constructor
  · rintro ⟨guard, listed, rfl, conflict⟩
    rw [guards] at listed
    rcases List.mem_append.mp listed with listed | other
    · have told := List.mem_map_of_mem (f := Guard.hold) listed
      rw [same] at told
      obtain ⟨hold, among, told⟩ := List.mem_map.mp told
      exact ⟨hold, among, congrArg Hold.page told, conflict.imp id
        fun exclusive => (congrArg Hold.latch told).trans exclusive⟩
    · exact absurd here (h.free guard other)
  · rintro ⟨hold, among, rfl, conflict⟩
    obtain ⟨guard, listed, told⟩ := h.guard_of_hold among
    exact ⟨guard, listed, congrArg Hold.page told, conflict.imp id
      fun exclusive => (congrArg Hold.latch told).trans exclusive⟩

theorem not_crowded (h : tree.Mirrors start own footing ideal) (few : ideal.holds.length < 3)
    (mem : own page) : ¬ footing.storage.pool.Crowded page := by
  obtain ⟨mine, guards, same⟩ := h.guards
  have count := congrArg List.length same
  rw [List.length_map, List.length_map] at count
  have others : start.pool.guards.countP (·.page = page) = 0 :=
    List.countP_eq_zero.mpr fun guard listed here =>
      h.free guard listed (of_decide_eq_true here ▸ (h.lodged.minted page mem).1)
  have own := List.countP_le_length (p := fun guard : Guard => guard.page = page) (l := mine)
  rw [Pool.Crowded, UInt32.size, guards, List.countP_append, others]
  omega

/-- With fewer than three guards, frames are lacking only where they were before the call. -/
theorem strained (h : tree.Mirrors start own footing ideal) {failure : Failure}
    (few : ideal.holds.length < 3) (short : footing.storage.Short failure) :
    start.Strained failure := by
  obtain ⟨mine, guards, same⟩ := h.guards
  have count := congrArg List.length same
  rw [List.length_map, List.length_map] at count
  refine Or.imp (fun blamed => blamed.imp h.lasts.disk.steady) (fun lacking => ⟨lacking.1, ?_⟩)
    short
  have full := Pool.size_le_of_exhausted h.began.pool h.lodged.coherent.pool guards h.size lacking.2
  omega

theorem refuse (h : tree.Mirrors start own footing ideal) {storage : Storage}
    (coherent : storage.Coherent .nothing) (kept : footing.storage.Kept storage)
    (lasts : footing.storage.Lasts (· = page) (fun _ => False) storage)
    (known : Minted tree.segment footing.anchor.nextPageNo page) :
    tree.Mirrors start own { footing with storage } ideal := by
  have content (other : PageId) := congrFun kept.content other
  refine ⟨h.began, h.free, h.lodged.of_lasts coherent lasts (fun _ _ => id)
    (fun other same _ => same ▸ known.2) fun other _ => content other,
    h.lasts.trans (lasts.imp (fun _ same => same ▸ known.1) fun _ => id),
    fun other apart => (content other).trans (h.elsewhere other apart), h.anchor,
    fun other mem => (content other).trans (h.content other mem), kept.guards ▸ h.guards, h.held,
    kept.nextGuard.trans h.nextGuard, kept.size.trans h.size⟩

theorem take (h : tree.Mirrors start own footing ideal) (more : ∀ page, own page → own' page)
    (took : footing.storage.Took latch page ⟨footing.storage.pool.nextGuard⟩ footing'.storage)
    (lodged : tree.Lodged own' footing')
    (lasts : footing.storage.Lasts (·.segment = tree.segment) (fun _ => False) footing'.storage)
    (elsewhere : ∀ page, page.segment ≠ tree.segment →
      footing'.storage.content page = footing.storage.content page)
    (mem : own' page) (anchor : footing'.anchor = ideal'.anchor)
    (content : ∀ page, own' page → footing'.storage.content page = ideal'.content page)
    (holds : ideal'.holds = ideal.holds) (next : ideal'.nextGuard = ideal.nextGuard) :
    tree.Mirrors start own' footing' (ideal'.take latch page).2 := by
  obtain ⟨frame, guards⟩ := took.guards
  obtain ⟨mine, guards', same⟩ := h.guards
  refine ⟨h.began, h.free, lodged, h.lasts.trans lasts, fun other apart => ?_, anchor, content,
    ⟨⟨⟨footing.storage.pool.nextGuard⟩, frame, page, latch, false⟩ :: mine, ?_, ?_⟩, ?_, ?_,
    took.size.trans h.size⟩
  · rw [elsewhere other apart, h.elsewhere other apart]
  · rw [guards, guards']
    rfl
  · rw [List.map_cons, same, Ideal.take, holds, next, h.nextGuard]
    rfl
  · intro hold listed
    rcases List.mem_cons.mp listed with rfl | listed
    · exact mem
    · rw [holds] at listed
      exact more _ (h.held hold listed)
  · rw [took.nextGuard, h.nextGuard]
    change _ = start.pool.nextGuard + (ideal'.nextGuard + 1)
    rw [next, Nat.add_assoc]

theorem fetch_ends (h : tree.Mirrors start own footing ideal) (few : ideal.holds.length < 3)
    (mem : own page) :
    Ends (pinned page (Pool.fetch latch page)) footing
      (fun reply f => ¬ ideal.Blocked latch page ∧
        tree.Mirrors start own f (ideal.take latch page).2 ∧
        ∃ guard, reply = ⟨guard, page, ideal.content page⟩ ∧
          guard.After start.pool.nextGuard ⟨ideal.nextGuard⟩)
      (fun failure f => failure = .violation .latchHeld ∧ ideal.Blocked latch page ∨
        start.Strained failure ∧ tree.Mirrors start own f ideal) := by
  have coherent := h.lodged.coherent
  have known := h.lodged.minted page mem
  have fetched := Pool.fetch_of_available coherent h.lodged.backed latch
    (h.lodged.available page mem)
  refine (pinned_took fetched).imp ?_ ?_
  · rintro _ _ ⟨s', rfl, coherent', took, ⟨content, lasts⟩, rfl⟩
    have lodged := h.lodged.of_lasts coherent' lasts (fun _ _ => id)
      (fun other same _ => same ▸ known.2) fun other _ => congrFun content other
    have unblocked := Pool.unblocked_of_took coherent coherent' took
    rw [h.blocked_iff mem] at unblocked
    refine ⟨unblocked, ?_, ⟨footing.storage.pool.nextGuard⟩, ?_, h.nextGuard⟩
    · exact h.take (fun _ mem => mem) took lodged
        (lasts.imp (fun _ same => same ▸ known.1) fun _ => id)
        (fun other _ => congrFun content other) mem h.anchor
        (fun other mem => (congrFun content other).trans (h.content other mem)) rfl rfl
    · rw [← h.content page mem, ← content]
  · rintro failure _ ⟨s', rfl, bars | ⟨short, coherent', kept, lasts⟩⟩
    · cases bars with
      | blocked blocked => exact .inl ⟨rfl, (h.blocked_iff mem).mp blocked⟩
      | crowded crowded => exact absurd crowded (h.not_crowded few mem)
    · exact .inr ⟨h.strained few short, h.refuse coherent' kept lasts known⟩

theorem mint_ends (h : tree.Mirrors start own footing ideal) :
    Ends (mintFrom tree.segment) footing
      (fun page f => ideal.anchor.nextPageNo ≤ maxPageNo ∧
        page = .ofParts tree.segment ideal.anchor.nextPageNo ∧
        Minted tree.segment f.anchor.nextPageNo page ∧ ¬ own page ∧
        page ∉ f.storage.pool.table ∧
        tree.Mirrors start own f ideal.handOut)
      (fun failure f => maxPageNo < ideal.anchor.nextPageNo ∧
        failure = .error (.storage (.segmentExhausted tree.segment)) ∧
        tree.Mirrors start own f ideal) := by
  obtain ⟨anchor, storage⟩ := footing
  obtain rfl : anchor = ideal.anchor := h.anchor
  rw [mintFrom, Ends.bind_iff, Ends.get_iff]
  by_cases full : maxPageNo < ideal.anchor.nextPageNo
  · simp only [if_pos full]
    exact ⟨full, rfl, h⟩
  · simp only [if_neg full]
    have room := Nat.le_of_not_lt full
    obtain ⟨new, known⟩ := minted_next tree.segment room
    have lodged := h.lodged
    refine ⟨room, rfl, known, fun mem => new (lodged.minted _ mem), fun resident => new ?_, h.began,
      h.free, { lodged with counter := Nat.succ_le_succ room, minted := ?_, residents := ?_ },
      h.lasts, h.elsewhere, rfl, h.content, h.guards, h.held, h.nextGuard, h.size⟩
    · exact ⟨known.1, lodged.residents _ resident known.1⟩
    · exact fun page mem => (lodged.minted page mem).mono (Nat.le_succ _)
    · exact fun page resident here => Nat.lt_succ_of_lt (lodged.residents page resident here)

theorem create_ends (h : tree.Mirrors start own footing ideal) (few : ideal.holds.length < 3)
    (known : Minted tree.segment footing.anchor.nextPageNo page) (new : ¬ own page)
    (absent : page ∉ footing.storage.pool.table) :
    Ends (pinned page (Pool.create page)) footing
      (fun reply f =>
        tree.Mirrors start (fun other => own other ∨ other = page) f
          ((ideal.put page Page.zeroed).take .exclusive page).2 ∧
        ∃ guard, reply = ⟨guard, page, Page.zeroed⟩ ∧
          guard.After start.pool.nextGuard ⟨ideal.nextGuard⟩)
      (fun failure f => start.Strained failure ∧ tree.Mirrors start own f ideal) := by
  have created := Pool.create_of_absent h.lodged.coherent h.lodged.backed absent
  refine (pinned_took created).imp ?_ ?_
  · rintro _ _ ⟨s', rfl, coherent', took, ⟨content, lasts, at_hand⟩, rfl⟩
    have others (other : PageId) (apart : other ≠ page) :
        s'.content other = footing.storage.content other := by
      rw [content, Function.update_of_ne apart]
    have read : s'.content page = Page.zeroed := by rw [content, Function.update_self]
    have stays (other : PageId) (mem : own other) :
        s'.content other = footing.storage.content other :=
      others other fun same => new (same ▸ mem)
    have lodged := (h.lodged.of_lasts coherent' lasts (fun _ _ => id)
      (fun other same _ => same ▸ known.2) stays).of_zeroed known at_hand read
    refine ⟨h.take (fun _ => .inl) took lodged
      (lasts.imp (fun _ same => same ▸ known.1) fun _ => id) (fun other apart => ?_) (.inr rfl)
      h.anchor ?_ rfl rfl, ⟨footing.storage.pool.nextGuard⟩, by rw [read], h.nextGuard⟩
    · exact others other fun same => apart (same ▸ known.1)
    · rintro other (mem | rfl)
      · have apart : other ≠ page := fun same => new (same ▸ mem)
        rw [Ideal.content_put, Function.update_of_ne apart]
        exact (stays other mem).trans (h.content other mem)
      · rw [Ideal.content_put, Function.update_self]
        exact read
  · rintro failure _ ⟨s', rfl, short, coherent', kept, lasts⟩
    exact ⟨h.strained few short, h.refuse coherent' kept lasts known⟩

theorem guard_of_after (h : tree.Mirrors start own footing ideal) {id id' : GuardId} {hold : Hold}
    (mem : hold ∈ ideal.holds) (here : hold.guard = id')
    (like : id.After start.pool.nextGuard id') :
    ∃ guard ∈ footing.storage.pool.guards, guard.id = id ∧ guard.page = hold.page := by
  obtain ⟨guard, listed, told⟩ := h.guard_of_hold mem
  refine ⟨guard, listed, ?_, congrArg Hold.page told⟩
  have number : guard.id = ⟨start.pool.nextGuard + hold.guard.index⟩ := congrArg Hold.guard told
  rw [number, here, ← like]

theorem other_ids (h : tree.Mirrors start own footing ideal) {id id' : GuardId}
    (like : id.After start.pool.nextGuard id') : ∀ guard ∈ start.pool.guards, guard.id ≠ id := by
  rintro guard mem rfl
  have older := h.began.pool.guard_numbers guard mem
  rw [like] at older
  omega

theorem write_ends (h : tree.Mirrors start own footing ideal) {id id' : GuardId} {bytes : Page}
    {hold : Hold} (mem : hold ∈ ideal.holds) (here : hold.guard = id')
    (like : id.After start.pool.nextGuard id') (fit : tree.capacities.Linked K own bytes) :
    Ends (onStorage (Pool.write id bytes)) footing
      (fun _ f => tree.Mirrors start own f (ideal.put hold.page bytes)) (fun _ _ => False) := by
  obtain ⟨guard, listed, rfl, at_page⟩ := h.guard_of_after mem here like
  have coherent := h.lodged.coherent
  refine onStorage_ends (((Pool.write_ends coherent guard.id bytes).and
    (Pool.write_lasts h.lodged.backed guard.id bytes)).imp ?_ ?_)
  · rintro _ s' ⟨⟨coherent', ⟨other, listed', same, content⟩, guards', next, size⟩, stays⟩
    obtain rfl : guard = other :=
      List.inj_on_of_nodup_map coherent.pool.guard_ids listed listed' same.symm
    rw [at_page] at content
    have others (page : PageId) (apart : page ≠ hold.page) :
        s'.content page = footing.storage.content page := by
      rw [content, Function.update_of_ne apart]
    have written : s'.content hold.page = bytes := by rw [content, Function.update_self]
    have own_page := h.held hold mem
    obtain ⟨mine, guards, told⟩ := h.guards
    refine ⟨h.began, h.free, { h.lodged with
        coherent := coherent', backed := stays.backed, available := ?_, linked := ?_
        residents := ?_ },
      h.lasts.trans (.of_stays stays), fun page apart => ?_, h.anchor, fun page mem => ?_,
      ⟨mine.map (Pool.marked guard.id), ?_, ?_⟩, h.held, next.trans h.nextGuard, size.trans h.size⟩
    · exact fun page mem => (stays.available page (h.lodged.available page mem)).resolve_left id
    · intro page mem
      by_cases same : page = hold.page
      · rw [same]
        exact written ▸ fit
      · rw [others page same]
        exact h.lodged.linked page mem
    · exact fun page resident => h.lodged.residents page
        ((stays.residents page resident).resolve_right id)
    · refine (others page fun same => apart ?_).trans (h.elsewhere page apart)
      exact same ▸ (h.lodged.minted _ own_page).1
    · rw [Ideal.content_put]
      by_cases same : page = hold.page
      · rw [same, Function.update_self]
        exact written
      · rw [Function.update_of_ne same]
        exact (others page same).trans (h.content page mem)
    · rw [guards', guards, List.map_append]
      congr 1
      refine (List.map_congr_left fun other listed => ?_).trans (List.map_id _)
      exact if_neg (h.other_ids like other listed)
    · rw [List.map_map]
      refine (List.map_congr_left fun other _ => ?_).trans told
      simp [Guard.hold]
  · rintro failure s' ⟨⟨-, -, gone⟩, -⟩
    exact gone guard listed rfl

theorem release_ends (h : tree.Mirrors start own footing ideal) {id id' : GuardId}
    {hold : Hold} (mem : hold ∈ ideal.holds) (here : hold.guard = id')
    (like : id.After start.pool.nextGuard id') :
    Ends (onStorage (Pool.release id)) footing
      (fun _ f => tree.Mirrors start own f
        { ideal with holds := ideal.holds.filter (·.guard ≠ id') })
      (fun _ _ => False) := by
  obtain ⟨guard, listed, rfl, -⟩ := h.guard_of_after mem here like
  have coherent := h.lodged.coherent
  refine onStorage_ends (((Pool.release_ends coherent guard.id).and
    (Pool.release_lasts coherent h.lodged.backed guard.id)).imp ?_ ?_)
  · rintro _ s' ⟨⟨coherent', content, -, guards', next, size, -⟩, stays, -⟩
    have read (page : PageId) := congrFun content page
    obtain ⟨mine, guards, told⟩ := h.guards
    refine ⟨h.began, h.free, h.lodged.of_lasts coherent' stays (fun _ _ => id)
      (fun _ never _ => never.elim) fun page _ => read page, h.lasts.trans (.of_stays stays),
      fun page apart => (read page).trans (h.elsewhere page apart), h.anchor,
      fun page mem => (read page).trans (h.content page mem),
      ⟨mine.filter (·.id ≠ guard.id), ?_, ?_⟩,
      fun hold kept => h.held hold (List.mem_of_mem_filter kept), next.trans h.nextGuard,
      size.trans h.size⟩
    · rw [guards', guards, List.filter_append]
      congr 1
      exact List.filter_eq_self.mpr fun other listed =>
        decide_eq_true (h.other_ids like other listed)
    · have number (hold : Hold) : (hold.after start.pool.nextGuard).guard = guard.id ↔
          hold.guard = id' := by
        constructor
        · intro same
          have same : start.pool.nextGuard + hold.guard.index = guard.id.index :=
            congrArg GuardId.index same
          rw [like] at same
          exact congrArg GuardId.mk (Nat.add_left_cancel same)
        · rintro rfl
          exact congrArg GuardId.mk like.symm
      calc (mine.filter (·.id ≠ guard.id)).map Guard.hold
          = (mine.map Guard.hold).filter (·.guard ≠ guard.id) := by rw [List.filter_map]; rfl
        _ = (ideal.holds.filter (·.guard ≠ id')).map (Hold.after start.pool.nextGuard) := by
          rw [told, List.filter_map]
          congr 1
          refine List.filter_congr fun hold _ => ?_
          simp only [Function.comp_apply, ne_eq, number]
  · rintro failure s' ⟨⟨-, -, gone⟩, -⟩
    exact gone guard listed rfl

end Tree.Mirrors

/-- What was owned still is, and so are the pages handed out since. -/
structure Tree.Grown (segment : SegmentId) (own own' : PageId → Prop) (before after : Nat) :
    Prop where
  keeps : ∀ page, own page → own' page
  taken : ∀ page, Minted segment after page → Minted segment before page ∨ own' page

namespace Tree.Grown

variable {segment : SegmentId} {own own' own'' : PageId → Prop} {n n' n'' : Nat}

theorem refl (segment : SegmentId) (own : PageId → Prop) (n : Nat) : Grown segment own own n n :=
  ⟨fun _ mem => mem, fun _ => .inl⟩

theorem trans (h : Grown segment own own' n n') (h' : Grown segment own' own'' n' n'') :
    Grown segment own own'' n n'' := by
  refine ⟨fun page mem => h'.keeps page (h.keeps page mem), fun page minted => ?_⟩
  rcases h'.taken page minted with minted | mem
  · exact (h.taken page minted).imp id (h'.keeps page)
  · exact .inr mem

theorem next (segment : SegmentId) (own : PageId → Prop) (n : Nat) :
    Grown segment own (fun page => own page ∨ page = .ofParts segment n) n (n + 1) := by
  refine ⟨fun _ => .inl, fun page minted => ?_⟩
  by_cases old : page.pageNo < n
  · exact .inl ⟨minted.1, old⟩
  · refine .inr (.inr ?_)
    have number : page.pageNo = n := by
      have := minted.2
      omega
    rw [← minted.1, ← number, PageId.ofParts_segment_pageNo]

end Tree.Grown

namespace Tree.Mirrors

variable {tree : Tree K V} {start : Storage} {α : Type} {post : (PageId → Prop) → α → α → Prop}
  {own : PageId → Prop} {footing : Footing} {ideal : Ideal} {program program' : Access α}

/-- The program comes to a like result on the ideal store. -/
def Done (tree : Tree K V) (start : Storage) (post : (PageId → Prop) → α → α → Prop)
    (own : PageId → Prop) (ideal : Ideal) (program : Access α) (a : α) (footing : Footing) : Prop :=
  ∃ own' a' ideal', program.ideally tree.segment ideal = (.ok a', ideal') ∧
    Grown tree.segment own own' ideal.anchor.nextPageNo ideal'.anchor.nextPageNo ∧
    post own' a a' ∧ tree.Mirrors start own' footing ideal'

/-- The only fault of storage that an ideal store has. -/
def Inherent (segment : SegmentId) (failure : Failure) : Prop :=
  ∀ fault, failure = .error (.storage fault) → fault = .segmentExhausted segment

/-- The program fails on the ideal store as well, or it is the storage that could not serve it. -/
def Failed (tree : Tree K V) (start : Storage) (own : PageId → Prop) (ideal : Ideal)
    (program : Access α) (failure : Failure) (footing : Footing) : Prop :=
  ∃ own' ideal', (∀ page, own page → own' page) ∧
    (program.ideally tree.segment ideal = (.error failure, ideal') ∧
        Inherent tree.segment failure ∧
        Grown tree.segment own own' ideal.anchor.nextPageNo ideal'.anchor.nextPageNo ∧
        (∀ error, failure = .error error → tree.Mirrors start own' footing ideal') ∨
      start.Strained failure ∧ tree.Mirrors start own' footing ideal')

section Steps

variable {own' : PageId → Prop} {ideal' : Ideal}
  (same : program.ideally tree.segment ideal = program'.ideally tree.segment ideal')
  (grown : Grown tree.segment own own' ideal.anchor.nextPageNo ideal'.anchor.nextPageNo)

include same grown

theorem Done.of_step {a : α} (h : Done tree start post own' ideal' program' a footing) :
    Done tree start post own ideal program a footing := by
  obtain ⟨own₁, a', ideal₁, ran, grown', like, mirrors⟩ := h
  exact ⟨own₁, a', ideal₁, same.trans ran, grown.trans grown', like, mirrors⟩

theorem Failed.of_step {failure : Failure}
    (h : Failed tree start own' ideal' program' failure footing) :
    Failed tree start own ideal program failure footing := by
  obtain ⟨own₁, ideal₁, more, ended⟩ := h
  refine ⟨own₁, ideal₁, fun page mem => more page (grown.keeps page mem), ended.imp ?_ id⟩
  rintro ⟨ran, inherent, grown', mirrors⟩
  exact ⟨same.trans ran, inherent, grown.trans grown', mirrors⟩

theorem ends_of_step {rest : FootingM α}
    (h : Ends rest footing (Done tree start post own' ideal' program')
      (Failed tree start own' ideal' program')) :
    Ends rest footing (Done tree start post own ideal program)
      (Failed tree start own ideal program) :=
  h.imp (fun _ _ done => done.of_step same grown) fun _ _ failed => failed.of_step same grown

end Steps

theorem Failed.of_refusal {failure : Failure}
    (refused : program.ideally tree.segment ideal = (.error failure, ideal))
    (inherent : Inherent tree.segment failure)
    (h : ∀ error, failure = .error error → tree.Mirrors start own footing ideal) :
    Failed tree start own ideal program failure footing :=
  ⟨own, ideal, fun _ mem => mem, .inl ⟨refused, inherent, .refl _ _ _, h⟩⟩

theorem Failed.of_strained {ideal' : Ideal} {failure : Failure} (strained : start.Strained failure)
    (h : tree.Mirrors start own footing ideal') :
    Failed tree start own ideal program failure footing :=
  ⟨own, ideal', fun _ mem => mem, .inr ⟨strained, h⟩⟩

/-- A request is answered as on the ideal store, or the storage could not serve it. -/
theorem run_ends (alike : tree.Alike (GuardId.After start.pool.nextGuard) post own program program')
    (h : tree.Mirrors start own footing ideal)
    (within_limit : Within 3 program' (fun _ _ => True) ideal.holds) :
    Ends (program.run tree.segment) footing (Done tree start post own ideal program')
      (Failed tree start own ideal program') := by
  induction alike generalizing footing ideal with
  | @done own a a' ended => exact ⟨own, a', ideal, rfl, .refl _ _ _, ended, h⟩
  | @fail own failure inherent =>
    exact Failed.of_refusal rfl (fun fault same => absurd same (inherent fault)) fun _ _ => h
  | @fetch own latch page next next' mem _ ih =>
    obtain ⟨few, goes_on⟩ := Within.ask_iff.mp within_limit
    change Ends (pinned page (Pool.fetch latch page) >>= fun reply => (next reply).run tree.segment)
      footing _ _
    rw [Ends.bind_iff]
    refine (h.fetch_ends few mem).imp ?_ ?_
    · rintro _ f ⟨unblocked, mirrors, guard, rfl, like⟩
      have fit := h.lodged.linked page mem
      rw [h.content page mem] at fit
      have same : (ask (.fetch latch page) next').ideally tree.segment ideal =
          (next' ⟨⟨ideal.nextGuard⟩, page, ideal.content page⟩).ideally tree.segment
            (ideal.take latch page).2 := ideally_of_answer (Ideal.answer_fetch unblocked)
      exact ends_of_step same (.refl _ _ _)
        (ih guard ⟨ideal.nextGuard⟩ _ like fit mirrors (goes_on _ _ h.fresh))
    · rintro failure f (⟨rfl, blocked⟩ | ⟨strained, mirrors⟩)
      · exact .of_refusal (ideally_of_refusal (by rw [Ideal.answer, if_pos blocked])) nofun nofun
      · exact .of_strained strained mirrors
  | @create own next next' _ ih =>
    change Ends (mintFrom tree.segment >>= fun page => pinned page (Pool.create page) >>=
      fun reply => (next page reply).run tree.segment) footing _ _
    rw [Ends.bind_iff]
    refine h.mint_ends.imp ?_ ?_
    · rintro _ f ⟨room, rfl, known, new, absent, mirrors⟩
      let page := PageId.ofParts tree.segment ideal.anchor.nextPageNo
      obtain ⟨few, goes_on⟩ := Within.ask_iff.mp (Within.ask_iff.mp within_limit page)
      rw [Ends.bind_iff]
      refine (mirrors.create_ends few known new absent).imp ?_ ?_
      · rintro _ f' ⟨mirrors', guard, rfl, like⟩
        have same : (ask .mint fun page => ask (.create page) (next' page)).ideally tree.segment
            ideal = (next' page ⟨⟨ideal.nextGuard⟩, page, Page.zeroed⟩).ideally tree.segment
              ((ideal.handOut.put page Page.zeroed).take .exclusive page).2 :=
          (ideally_of_answer (Ideal.answer_mint room)).trans
            (ideally_of_answer (Ideal.answer_create _ _ _))
        exact ends_of_step same (.next tree.segment own ideal.anchor.nextPageNo)
          (ih page guard _ like mirrors' (goes_on _ _ h.fresh))
      · rintro failure f' ⟨strained, mirrors'⟩
        exact .of_strained strained mirrors'
    · rintro _ f ⟨full, rfl, mirrors⟩
      refine .of_refusal (ideally_of_refusal (by rw [Ideal.answer, if_pos full])) ?_
        fun _ _ => mirrors
      rintro _ ⟨⟩
      rfl
  | @write own id id' bytes next next' like fit _ ih =>
    obtain ⟨⟨page, held⟩, goes_on⟩ := Within.ask_iff.mp within_limit
    obtain ⟨hold, mem, here, found⟩ := Ideal.hold?_of_held ⟨_, held, rfl⟩
    have same : (ask (.write id' bytes) next').ideally tree.segment ideal =
        (next' ()).ideally tree.segment (ideal.put hold.page bytes) :=
      ideally_of_answer (by rw [Ideal.answer, found])
    change Ends (onStorage (Pool.write id bytes) >>= fun reply => (next reply).run tree.segment)
      footing _ _
    rw [Ends.bind_iff]
    refine (h.write_ends mem here like fit).imp (fun _ f mirrors => ?_) fun _ _ => False.elim
    exact ends_of_step same (.refl _ _ _) (ih mirrors goes_on)
  | @release own id id' next next' like _ ih =>
    obtain ⟨held, goes_on⟩ := Within.ask_iff.mp within_limit
    obtain ⟨hold, mem, here, found⟩ := Ideal.hold?_of_held held
    have same : (ask (.release id') next').ideally tree.segment ideal =
        (next' ()).ideally tree.segment
          { ideal with holds := ideal.holds.filter (·.guard ≠ id') } :=
      ideally_of_answer (by rw [Ideal.answer, found])
    change Ends (onStorage (Pool.release id) >>= fun reply => (next reply).run tree.segment)
      footing _ _
    rw [Ends.bind_iff]
    refine (h.release_ends mem here like).imp (fun _ f mirrors => ?_) fun _ _ => False.elim
    exact ends_of_step same (.refl _ _ _) (ih mirrors goes_on)
  | @setRoot own root next next' mem _ ih =>
    have goes_on := Within.ask_iff.mp within_limit
    have same : (ask (.setRoot root) next').ideally tree.segment ideal =
        (next' ()).ideally tree.segment { ideal with anchor.root := some root } :=
      ideally_of_answer rfl
    have mirrors : tree.Mirrors start own
        { footing with anchor.root := some root } { ideal with anchor.root := some root } := by
      have lodged := h.lodged
      refine { h with
        anchor := by rw [h.anchor]
        lodged := { lodged with root := fun other anchored => ?_ } }
      cases anchored
      exact mem
    exact ends_of_step same (.refl _ _ _) (ih mirrors goes_on)

theorem distinct (h : tree.Mirrors start own footing ideal) :
    (ideal.holds.map Hold.guard).Nodup := by
  obtain ⟨mine, guards, told⟩ := h.guards
  have ids := h.lodged.coherent.pool.guard_ids
  rw [guards, List.map_append] at ids
  have numbered : mine.map (·.id) = (ideal.holds.map Hold.guard).map
      fun id => ⟨start.pool.nextGuard + id.index⟩ := by
    have same := congrArg (List.map Hold.guard) told
    rw [List.map_map, List.map_map] at same
    rw [List.map_map]
    exact same
  have nodup := (List.nodup_append.mp ids).1
  rw [numbered] at nodup
  exact nodup.of_map _

theorem releases_end (h : tree.Mirrors start own footing ideal) :
    Ends ((ideal.holds.map fun hold => (hold.after start.pool.nextGuard).guard).forM
        fun id => onStorage (Pool.release id)) footing
      (fun _ f => tree.Mirrors start own f { ideal with holds := [] }) (fun _ _ => False) := by
  obtain ⟨⟨anchor, content, holds⟩, nextGuard⟩ := ideal
  induction holds generalizing footing with
  | nil => exact h
  | cons hold rest ih =>
    have apart := (List.nodup_cons.mp h.distinct).1
    have others : (hold :: rest).filter (·.guard ≠ hold.guard) = rest := by
      rw [List.filter_cons_of_neg (by simp)]
      refine List.filter_eq_self.mpr fun other mem => decide_eq_true fun same => apart ?_
      exact same ▸ List.mem_map_of_mem mem
    have like : GuardId.After start.pool.nextGuard (hold.after start.pool.nextGuard).guard
        hold.guard := rfl
    have released := h.release_ends List.mem_cons_self rfl like
    simp only [others] at released
    change Ends (onStorage (Pool.release (hold.after start.pool.nextGuard).guard) >>= fun _ =>
      (rest.map fun hold => (hold.after start.pool.nextGuard).guard).forM
        fun id => onStorage (Pool.release id)) footing _ _
    rw [Ends.bind_iff]
    exact released.imp (fun _ f mirrors => ih mirrors) fun _ _ => False.elim

theorem releaseSince_ends (h : tree.Mirrors start own footing ideal) :
    Ends (releaseSince start.pool.nextGuard) footing
      (fun _ f => tree.Mirrors start own f { ideal with holds := [] }) (fun _ _ => False) := by
  obtain ⟨mine, guards, told⟩ := h.guards
  have ids : mine.map (·.id) =
      ideal.holds.map fun hold => (hold.after start.pool.nextGuard).guard := by
    have same := congrArg (List.map Hold.guard) told
    rw [List.map_map, List.map_map] at same
    exact same
  have since : ∀ guard ∈ mine, start.pool.nextGuard ≤ guard.id.index := by
    intro guard mem
    have mem := List.mem_map_of_mem (f := (·.id)) mem
    rw [ids] at mem
    obtain ⟨hold, -, same⟩ := List.mem_map.mp mem
    rw [← same]
    exact Nat.le_add_right _ _
  rw [releaseSince, Ends.bind_iff, Ends.get_iff,
    takenSince_eq guards since h.began.pool.guard_numbers, ids]
  exact h.releases_end

theorem begin {s : Storage} {anchor : Anchor} {content : PageId → Page}
    (lodged : tree.Lodged own ⟨anchor, s⟩)
    (free : ∀ guard ∈ s.pool.guards, guard.page.segment ≠ tree.segment)
    (agree : ∀ page, own page → s.content page = content page) :
    tree.Mirrors s own ⟨anchor, s⟩ (.start anchor content) :=
  ⟨lodged.coherent, free, lodged, .of_stays (.refl lodged.backed), fun _ _ => rfl, rfl, agree,
    ⟨[], rfl, rfl⟩, nofun, rfl, rfl⟩

/-- A program on guards of its own ends as on the ideal store, and has let go of them then. -/
theorem perform_ends {anchor : Anchor}
    (alike : tree.Alike (GuardId.After start.pool.nextGuard) post own program program')
    (h : tree.Mirrors start own ⟨anchor, start⟩ ideal)
    (within_limit : Within 3 program' (fun _ _ => True) ideal.holds) :
    Ends (program.perform tree.segment) ⟨anchor, start⟩
      (fun a f => ∃ own' a' ideal', program'.ideally tree.segment ideal = (.ok a', ideal') ∧
        Grown tree.segment own own' ideal.anchor.nextPageNo ideal'.anchor.nextPageNo ∧
        post own' a a' ∧ tree.Mirrors start own' f { ideal' with holds := [] })
      (fun failure f => match failure with
        | .error error => ∃ own' ideal', (∀ page, own page → own' page) ∧
            tree.Mirrors start own' f { ideal' with holds := [] } ∧
            (program'.ideally tree.segment ideal = (.error (.error error), ideal') ∧
              Inherent tree.segment (.error error) ∧
              Grown tree.segment own own' ideal.anchor.nextPageNo ideal'.anchor.nextPageNo ∨
            start.Strained (.error error))
        | .violation _ => ∃ violation ideal',
            program'.ideally tree.segment ideal = (.error (.violation violation), ideal')) := by
  rw [Access.perform, Ends.bind_iff, Ends.get_iff]
  refine Ends.tryFinally_of ((run_ends alike h within_limit).imp ?_ ?_)
  · rintro a f ⟨own', a', ideal', ran, grown, like, mirrors⟩
    exact mirrors.releaseSince_ends.imp
      (fun _ f' mirrors' => ⟨own', a', ideal', ran, grown, like, mirrors'⟩) fun _ _ => False.elim
  · rintro failure f ⟨own', ideal', more, ended⟩
    cases failure with
    | error error =>
      have settled : tree.Mirrors start own' f ideal' ∧
          (program'.ideally tree.segment ideal = (.error (.error error), ideal') ∧
            Inherent tree.segment (.error error) ∧
            Grown tree.segment own own' ideal.anchor.nextPageNo ideal'.anchor.nextPageNo ∨
          start.Strained (.error error)) := by
        rcases ended with ⟨ran, inherent, grown, mirrors⟩ | ⟨strained, mirrors⟩
        · exact ⟨mirrors error rfl, .inl ⟨ran, inherent, grown⟩⟩
        · exact ⟨mirrors, .inr strained⟩
      exact settled.1.releaseSince_ends.imp
        (fun _ f' mirrors' => ⟨own', ideal', more, mirrors', settled.2⟩) fun _ _ => False.elim
    | violation violation =>
      have violated : program'.ideally tree.segment ideal =
          (.error (.violation violation), ideal') := by
        rcases ended with ⟨ran, -⟩ | ⟨⟨-, cause, other⟩ | ⟨other, -⟩, -⟩
        · exact ran
        · cases other
        · cases other
      refine (Moment.releaseSince_ends f).imp (fun _ _ _ => ⟨violation, ideal', violated⟩) ?_
      rintro _ _ ⟨other, rfl⟩
      exact ⟨violation, ideal', violated⟩

end Tree.Mirrors

/-- What a call leaves, whichever way it ended: its tree's pages can be had, all other pages read as
before, and it has no guard. -/
structure Tree.Settled (tree : Tree K V) (own own' : PageId → Prop) (s : Storage)
    [FixedWidth V] (reached : Reached K V) : Prop where
  same : reached.tree = { tree with anchor := reached.tree.anchor }
  lodged : reached.tree.Lodged own' ⟨reached.tree.anchor, reached.storage⟩
  more : ∀ page, own page → own' page
  lasts : s.Lasts (·.segment = tree.segment) (fun _ => False) reached.storage
  elsewhere : ∀ page, page.segment ≠ tree.segment →
    reached.storage.content page = s.content page
  guards : reached.storage.pool.guards = s.pool.guards
  size : reached.storage.pool.size = s.pool.size

namespace Tree

variable [FixedWidth V] {tree : Tree K V} {own own' : PageId → Prop} {s : Storage}

theorem Mirrors.settled {anchor : Anchor} {storage : Storage} {ideal : Ideal} {outcome : Outcome V}
    (more : ∀ page, own page → own' page)
    (h : tree.Mirrors s own' ⟨anchor, storage⟩ { ideal with holds := [] }) :
    tree.Settled own own' s ⟨outcome, { tree with anchor }, storage⟩ := by
  obtain ⟨mine, guards, told⟩ := h.guards
  obtain rfl := List.map_eq_nil_iff.mp told
  refine ⟨rfl, ?_, more, h.lasts, h.elsewhere, guards, h.size⟩
  exact { h.lodged with }

structure Faithful (tree : Tree K V) (own own' : PageId → Prop) (content : PageId → Page)
    (call : Call K V) (reached : Reached K V) : Prop where
  came : ∃ content', tree.ideally content call = some ⟨reached.outcome, reached.tree, content'⟩ ∧
    ∀ page, own' page → reached.storage.content page = content' page
  grown : Grown tree.segment own own' tree.anchor.nextPageNo reached.tree.anchor.nextPageNo
  inherent : ∀ fault, reached.outcome = .error (.storage fault) →
    fault = .segmentExhausted tree.segment

/-- A call comes to what it comes to on an ideal store with the same pages, unless the storage could
not serve it: then it fails, and its pages stay. -/
theorem call_comes {content : PageId → Page} (suitable : tree.capacities.Suitable K V)
    (lodged : tree.Lodged own ⟨tree.anchor, s⟩)
    (free : ∀ guard ∈ s.pool.guards, guard.page.segment ≠ tree.segment)
    (agree : ∀ page, own page → s.content page = content page) (call : Call K V) :
    match tree.call call s with
    | .ok reached => ∃ own', tree.Settled own own' s reached ∧
        (tree.Faithful own own' content call reached ∨
          ∃ error, reached.outcome = .error error ∧ s.Strained (.error error))
    | .error _ => tree.ideally content call = none := by
  have ends := Mirrors.perform_ends (program_alike suitable lodged.root call)
    (Mirrors.begin lodged free agree) ((program_within tree call).mono call.guardLimit_le)
  unfold Tree.call Tree.perform
  cases ran : ((tree.program call).perform tree.segment).run ⟨tree.anchor, s⟩ with
  | ok answer f =>
    obtain ⟨own', _, ideal', came, grown, rfl, mirrors⟩ := ends.of_ok ran
    have anchor : f.anchor = ideal'.anchor := mirrors.anchor
    refine ⟨own', mirrors.settled grown.keeps, .inl ⟨⟨_, ?_, mirrors.content⟩, ?_, nofun⟩⟩
    · simp only [Tree.ideally, came, anchor]
    · rw [anchor]
      exact grown
  | error failure f =>
    cases failure with
    | error error =>
      obtain ⟨own', ideal', more, mirrors, ended⟩ := ends.of_error ran
      have anchor : f.anchor = ideal'.anchor := mirrors.anchor
      refine ⟨own', mirrors.settled more, ended.imp ?_ fun strained => ⟨error, rfl, strained⟩⟩
      rintro ⟨came, inherent, grown⟩
      refine ⟨⟨_, ?_, mirrors.content⟩, ?_, fun fault same => inherent fault ?_⟩
      · simp only [Tree.ideally, came, anchor]
      · rw [anchor]
        exact grown
      · exact congrArg Failure.error (Except.error.inj same)
    | violation violation =>
      obtain ⟨violation', ideal', came⟩ := ends.of_error ran
      simp only [Tree.ideally, came]

end Tree

end PagedIndex
