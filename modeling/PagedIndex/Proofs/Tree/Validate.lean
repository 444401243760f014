import PagedIndex.Proofs.Tree.Nodes
import PagedIndex.Proofs.Tree.Scene

/-!
# Validation accepts the sound trees only

On pages of any bytes a validation ends with the census of the tree below a page if the tree is
sound and no page occurs twice, here or before, and with a fault found in it otherwise.
-/

namespace PagedIndex.Tree

open KeyOrder Access

variable {K V : Type}

section Checks

variable {range : Range K} {keys : List K} {page : PageId}

theorem length_subranges (range : Range K) (keys : List K) :
    (subranges range keys).length = keys.length + 1 := by
  induction keys generalizing range with
  | nil => rfl
  | cons key rest ih => rw [subranges, List.length_cons, ih, List.length_cons]

theorem chain_iff {P : Range K → PageId → Prop} {children : List PageId}
    (length : children.length = keys.length + 1) :
    Chain P range keys children ↔
      ∀ pair ∈ children.zip (subranges range keys), P pair.2 pair.1 := by
  induction keys generalizing range children with
  | nil =>
    obtain ⟨child, rfl⟩ := List.length_eq_one_iff.mp length
    simp [Chain, subranges]
  | cons key rest ih =>
    cases children with
    | nil => cases length
    | cons child children =>
      rw [Chain, subranges, List.zip_cons_cons, List.forall_mem_cons,
        ih (by simpa using length)]

theorem flatMap_zip {children : List PageId} {ranges : List (Range K)}
    (length : children.length = ranges.length) (f : PageId → List PageId) :
    ((children.zip ranges).flatMap fun pair => f pair.1) = children.flatMap f := by
  have fst := List.map_fst_zip (Nat.le_of_eq length)
  conv => rhs; rw [← fst]
  rw [List.flatMap_map]

variable [IndexKey K]

theorem isAscending_iff : isAscending keys = true ↔ keys.Pairwise (· < ·) := by
  rw [← List.isChain_iff_pairwise]
  induction keys with
  | nil => simp [isAscending]
  | cons first rest ih =>
    cases rest with
    | nil => simp [isAscending]
    | cons second rest =>
      rw [isAscending, Bool.and_eq_true, ih, List.isChain_cons_cons, beq_iff_eq, compare_lt_iff]

theorem checkKeys_cases (page : PageId) (keys : List K) (range : Range K) :
    (checkKeys page keys range = .ok () ∧ keys.Pairwise (· < ·) ∧
        ∀ key ∈ keys, range.contains key = true) ∨
      ∃ fault, checkKeys page keys range = .error fault ∧
        ¬ (keys.Pairwise (· < ·) ∧ ∀ key ∈ keys, range.contains key = true) := by
  unfold checkKeys
  by_cases ascending : isAscending keys = true
  · by_cases inside : keys.all range.contains = true
    · refine .inl ⟨by simp [ascending, inside], isAscending_iff.mp ascending, ?_⟩
      exact List.all_eq_true.mp inside
    · refine .inr ⟨.misroutedKeys page, by simp [ascending, inside], fun sound => inside ?_⟩
      exact List.all_eq_true.mpr sound.2
  · refine .inr ⟨.unsortedKeys page, by simp [ascending], fun sound => ascending ?_⟩
    exact isAscending_iff.mpr sound.1

end Checks

/-- A census with the pages of a tree added. -/
structure Tallied (nodes : Nodes K V) (visited : List PageId) (census census' : Census) : Prop where
  seen : ∀ p, p ∈ census'.seen ↔ p ∈ census.seen ∨ p ∈ visited
  leaves : census'.shape.leaves = census.shape.leaves + visited.countP fun p => (nodes p).isLeaf
  inners : census'.shape.inners = census.shape.inners + visited.countP fun p => !(nodes p).isLeaf
  entries : census'.shape.entries =
    census.shape.entries + (visited.flatMap fun p => (nodes p).entries).length

namespace Tallied

variable {nodes : Nodes K V} {census census' census'' : Census} {visited visited' : List PageId}

theorem nothing (nodes : Nodes K V) (census : Census) : Tallied nodes [] census census :=
  ⟨by simp, by simp, by simp, by simp⟩

theorem trans (h : Tallied nodes visited census census')
    (h' : Tallied nodes visited' census' census'') :
    Tallied nodes (visited' ++ visited) census census'' := by
  refine ⟨fun p => ?_, ?_, ?_, ?_⟩
  · rw [h'.seen, h.seen, List.mem_append, or_assoc, or_comm (a := p ∈ visited)]
  · rw [h'.leaves, h.leaves, List.countP_append]
    omega
  · rw [h'.inners, h.inners, List.countP_append]
    omega
  · rw [h'.entries, h.entries, List.flatMap_append, List.length_append]
    omega

end Tallied

/-- The census once a page is noted, its counts not yet. -/
structure Noted (page : PageId) (census census' : Census) : Prop where
  seen : ∀ p, p ∈ census'.seen ↔ p ∈ census.seen ∨ p = page
  leaves : census'.shape.leaves = census.shape.leaves
  inners : census'.shape.inners = census.shape.inners
  entries : census'.shape.entries = census.shape.entries

namespace Noted

variable {nodes : Nodes K V} {page : PageId} {census census₁ census' : Census}

theorem leaf (noted : Noted page census census₁) {listed : List (K × V)}
    (node : nodes page = .leaf listed) :
    Tallied nodes [page] census
      { census₁ with shape :=
        { census₁.shape with
          leaves := census₁.shape.leaves + 1
          entries := census₁.shape.entries + listed.length } } := by
  refine ⟨fun p => ?_, ?_, ?_, ?_⟩
  · rw [noted.seen, List.mem_singleton]
  · simp [node, Node.isLeaf, noted.leaves]
  · simp [node, Node.isLeaf, noted.inners]
  · simp [node, Node.entries, noted.entries]

theorem inner (noted : Noted page census census₁) {level : Nat} {separators : List K}
    {pointers below : List PageId} (node : nodes page = .inner level separators pointers)
    (tallied : Tallied nodes below
      { census₁ with shape.inners := census₁.shape.inners + 1 } census') :
    Tallied nodes (page :: below) census census' := by
  refine ⟨fun p => ?_, ?_, ?_, ?_⟩
  · rw [tallied.seen, List.mem_cons, noted.seen, or_assoc]
  · rw [tallied.leaves]
    simp [node, Node.isLeaf, noted.leaves]
  · rw [tallied.inners]
    simp [node, Node.isLeaf, noted.inners]
    omega
  · rw [tallied.entries]
    simp [node, Node.entries, noted.entries]

end Noted

variable [IndexKey K] [FixedWidth V]

variable {tree : Tree K V} {ground : Ground} {scene : Scene} {page : PageId}

theorem visit_ensures {failed : Error → Scene → Prop} (bare : scene.holds = [])
    (mine : ground.mine page) (one : 1 ≤ ground.limit)
    (refused : ∀ fault : StorageFault, failed (.storage fault) scene) :
    Ensures ground failed (visit page)
      (fun bytes scene' => bytes = scene.content page ∧ scene' = scene) scene := by
  have held : Held .shared [] scene.holds := bare ▸ .nothing .shared
  rw [visit, Ensures.bind_iff]
  refine Ensures.fetch_held held mine one nofun refused fun guard holds pins => ?_
  rw [Ensures.bind_iff]
  refine Ensures.release_held pins (List.Perm.refl _) fun holds nothing => ?_
  have none_left : holds = [] := List.Perm.eq_nil nothing.perm
  subst none_left
  exact Ensures.pure_iff.mpr ⟨rfl, by rw [← bare]⟩

theorem mem_insert_seen (census : Census) (page p : PageId) :
    p ∈ census.seen.insert page ↔ p ∈ census.seen ∨ p = page := by
  rw [Std.TreeSet.mem_insert, Std.LawfulEqCmp.compare_eq_iff_eq, or_comm, eq_comm]

/-- The tree below a page may be added to a census. -/
structure Acceptable (tree : Tree K V) (content : PageId → Page) (level : Nat) (range : Range K)
    (page : PageId) (census : Census) : Prop where
  sound : Sound tree.capacities (tree.nodes content) level range page
  nodup : (pages (tree.nodes content) level page).Nodup
  unseen : ∀ p ∈ pages (tree.nodes content) level page, p ∉ census.seen

structure AllAcceptable (tree : Tree K V) (content : PageId → Page) (level : Nat)
    (pairs : List (PageId × Range K)) (census : Census) : Prop where
  sound : ∀ pair ∈ pairs, Sound tree.capacities (tree.nodes content) level pair.2 pair.1
  nodup : (pairs.flatMap fun pair => pages (tree.nodes content) level pair.1).Nodup
  unseen : ∀ p ∈ pairs.flatMap fun pair => pages (tree.nodes content) level pair.1, p ∉ census.seen

/-- A validation ends early on a storage fault, or on a fault in a tree that is not accepted. -/
def Refused (scene : Scene) (accepted : Prop) (error : Error) (scene' : Scene) : Prop :=
  scene' = scene ∧
    ((∃ fault, error = .storage fault) ∨ (∃ fault, error = .corrupted fault) ∧ ¬ accepted)

theorem Refused.imp {accepted accepted' : Prop} (h : accepted' → accepted) {error : Error}
    {scene' : Scene} (refused : Refused scene accepted error scene') :
    Refused scene accepted' error scene' :=
  ⟨refused.1, refused.2.imp_right fun found => ⟨found.1, mt h found.2⟩⟩

theorem refused_fault {accepted : Prop} (fault : StorageFault) :
    Refused scene accepted (.storage fault) scene := ⟨rfl, .inl ⟨fault, rfl⟩⟩

theorem refused_corrupted {accepted : Prop} (fault : TreeFault) (not_accepted : ¬ accepted) :
    Refused scene accepted (.corrupted fault) scene := ⟨rfl, .inr ⟨⟨fault, rfl⟩, not_accepted⟩⟩

theorem ofCheck_ensures {keys : List K} {range : Range K} {accepted : Prop} {α : Type}
    {next : Access α} {post : α → Scene → Prop}
    (needed : accepted → keys.Pairwise (· < ·) ∧ ∀ key ∈ keys, range.contains key = true)
    (goes_on : keys.Pairwise (· < ·) → (∀ key ∈ keys, range.contains key = true) →
      Ensures ground (Refused scene accepted) next post scene) :
    Ensures ground (Refused scene accepted)
      (ofCheck (checkKeys page keys range) >>= fun _ => next) post scene := by
  rw [Ensures.bind_iff]
  rcases checkKeys_cases page keys range with ⟨ok, ascending, inside⟩ | ⟨fault, error, unsound⟩
  · rw [ok]
    exact Ensures.pure_iff.mpr (goes_on ascending inside)
  · rw [error]
    exact Ensures.error_iff.mpr (refused_corrupted fault fun accepted => unsound (needed accepted))

theorem checkLeaf_ensures (suitable : tree.capacities.Suitable K V) {bytes : Page}
    {listed : List (K × V)} {range : Range K} {census : Census} {accepted : Prop}
    {post : Census → Scene → Prop}
    (node : (Node.of tree.capacities bytes : Node K V) = .leaf listed)
    (needed : accepted → LeafSound tree.capacities range listed)
    (goes_on : LeafSound tree.capacities range listed →
      post
        { census with shape :=
          { census.shape with
            leaves := census.shape.leaves + 1, entries := census.shape.entries + listed.length } }
        scene) :
    Ensures ground (Refused scene accepted)
      (tree.checkLeaf page bytes listed.length range census) post scene := by
  rw [checkLeaf]
  by_cases crowded : tree.capacities.leaf < listed.length
  · rw [if_pos crowded]
    refine Ensures.bind_iff.mpr (Ensures.error_iff.mpr (refused_corrupted _ fun accepted => ?_))
    exact absurd (needed accepted).within (Nat.not_le_of_lt crowded)
  · rw [if_neg crowded]
    have within := Nat.le_of_not_lt crowded
    refine Ensures.bind_iff.mpr
      ((Ensures.ofNode_iff (Node.leaf_keys_eq suitable node within)).mpr ?_)
    refine ofCheck_ensures (fun accepted => ?_) fun ascending inside => ?_
    · have sound := needed accepted
      refine ⟨sound.ascending, fun key mem => ?_⟩
      obtain ⟨entry, among, rfl⟩ := List.mem_map.mp mem
      exact sound.inside entry among
    · exact Ensures.pure_iff.mpr (goes_on ⟨within, ascending,
        fun entry mem => inside entry.1 (List.mem_map_of_mem mem)⟩)

theorem checkInner_ensures (suitable : tree.capacities.Suitable K V) {bytes : Page} {level : Nat}
    {separators : List K} {pointers : List PageId} {range : Range K} {accepted : Prop}
    {post : List (PageId × Range K) → Scene → Prop}
    (node : (Node.of tree.capacities bytes : Node K V) = .inner level separators pointers)
    (needed : accepted → InnerSound tree.capacities range separators pointers ∧ pointers ≠ [])
    (goes_on : InnerSound tree.capacities range separators pointers → pointers ≠ [] →
      post (pointers.zip (subranges range separators)) scene) :
    Ensures ground (Refused scene accepted) (tree.checkInner page bytes pointers.length range) post
      scene := by
  rw [checkInner]
  by_cases wrong : pointers.length = 0 ∨ tree.capacities.inner < pointers.length
  · rw [if_pos wrong]
    refine Ensures.bind_iff.mpr (Ensures.error_iff.mpr (refused_corrupted _ fun accepted => ?_))
    obtain ⟨sound, some⟩ := needed accepted
    rcases wrong with zero | crowded
    · exact some (List.length_eq_zero_iff.mp zero)
    · exact absurd sound.within (Nat.not_le_of_lt crowded)
  · rw [if_neg wrong]
    have within : pointers.length ≤ tree.capacities.inner := by omega
    have some : pointers ≠ [] := fun none => wrong (.inl (List.length_eq_zero_iff.mpr none))
    refine Ensures.bind_iff.mpr
      ((Ensures.ofNode_iff (Node.inner_keys_eq suitable node within)).mpr ?_)
    refine ofCheck_ensures
      (fun accepted => ⟨(needed accepted).1.ascending, (needed accepted).1.inside⟩)
      fun ascending inside => ?_
    refine Ensures.bind_iff.mpr
      ((Ensures.ofNode_iff (Node.inner_children_eq suitable node within)).mpr ?_)
    exact Ensures.pure_iff.mpr (goes_on ⟨within, ascending, inside⟩ some)

/-- The level that a validation is told to find, if it is told one. -/
def Expects (expected : Option UInt16) (level : Nat) : Prop :=
  ∀ told, expected = some told → told.toNat = level

theorem expects_none (level : Nat) : Expects none level := nofun

theorem toNat_pred {level : UInt16} (pos : 0 < level.toNat) :
    (level - 1).toNat = level.toNat - 1 := by
  have one : (1 : UInt16).toNat ≤ level.toNat := pos
  rw [UInt16.toNat_sub_of_le _ _ (UInt16.le_iff_toNat_le.mpr one)]
  rfl

/-- What a validation does with a census: it adds the tree below a page to it, or tells why not. -/
def Adds (tree : Tree K V) (ground : Ground) (scene : Scene) (expected : Option UInt16)
    (range : Range K) (page : PageId) (visit : Census → Access Census) : Prop :=
  ∀ census, Ensures ground
    (Refused scene (∃ level, Expects expected level ∧
      Acceptable tree scene.content level range page census))
    (visit census)
    (fun census' scene' => scene' = scene ∧ ∃ level, Expects expected level ∧
      Acceptable tree scene.content level range page census ∧
      Tallied (tree.nodes scene.content) (pages (tree.nodes scene.content) level page)
        census census' ∧
      census'.shape.height = if expected = none then level + 1 else census.shape.height) scene

theorem AllAcceptable.tail {content : PageId → Page} {level : Nat} {pair : PageId × Range K}
    {rest : List (PageId × Range K)} {census : Census}
    (all : AllAcceptable tree content level (pair :: rest) census) :
    AllAcceptable tree content level rest census :=
  ⟨fun pair mem => all.sound pair (List.mem_cons_of_mem _ mem),
    (List.nodup_append.mp all.nodup).2.1,
    fun p mem => all.unseen p (List.mem_append_right _ mem)⟩

theorem allAcceptable_cons (pair : PageId × Range K) {content : PageId → Page} {level : Nat}
    {rest : List (PageId × Range K)} {census census' : Census}
    (seen : ∀ p, p ∈ census'.seen ↔ p ∈ census.seen ∨
      p ∈ rest.flatMap fun pair => pages (tree.nodes content) level pair.1) :
    AllAcceptable tree content level (pair :: rest) census ↔
      AllAcceptable tree content level rest census ∧
        Acceptable tree content level pair.2 pair.1 census' := by
  constructor
  · intro all
    obtain ⟨first, -, across⟩ := List.nodup_append.mp all.nodup
    refine ⟨all.tail, all.sound pair List.mem_cons_self, first, fun p mem met => ?_⟩
    rcases (seen p).mp met with met | among
    · exact all.unseen p (List.mem_append_left _ mem) met
    · exact across p mem p among rfl
  · intro given
    rcases given with ⟨others, first⟩
    refine ⟨List.forall_mem_cons.mpr ⟨first.sound, others.sound⟩,
      List.nodup_append.mpr ⟨first.nodup, others.nodup, ?_⟩, fun p mem => ?_⟩
    · rintro p mem _ mem' rfl
      exact first.unseen p mem ((seen p).mpr (.inr mem'))
    · rcases List.mem_append.mp mem with mem | mem
      · exact fun met => first.unseen p mem ((seen p).mpr (.inl met))
      · exact others.unseen p mem

theorem foldrM_ensures {told : UInt16} {pairs : List (PageId × Range K)}
    {visit : PageId × Range K → Census → Access Census}
    (each : ∀ pair ∈ pairs, Adds tree ground scene (some told) pair.2 pair.1 (visit pair))
    (census : Census) :
    Ensures ground (Refused scene (AllAcceptable tree scene.content told.toNat pairs census))
      (pairs.foldrM visit census)
      (fun census' scene' => scene' = scene ∧
        AllAcceptable tree scene.content told.toNat pairs census ∧
        Tallied (tree.nodes scene.content)
          (pairs.flatMap fun pair => pages (tree.nodes scene.content) told.toNat pair.1)
          census census' ∧
        census'.shape.height = census.shape.height) scene := by
  induction pairs with
  | nil => exact Ensures.pure_iff.mpr ⟨rfl, ⟨by simp, by simp, by simp⟩, .nothing _ _, rfl⟩
  | cons pair rest ih =>
    rw [List.foldrM_cons, Ensures.bind_iff]
    refine (ih fun pair mem => each pair (List.mem_cons_of_mem _ mem)).imp ?_ fun error scene' =>
      Refused.imp AllAcceptable.tail
    intro census' _ ended
    rcases ended with ⟨rfl, others, tallied, height⟩
    have cons_iff := allAcceptable_cons pair tallied.seen
    refine (each pair List.mem_cons_self census').imp ?_ fun error scene' => Refused.imp fun all =>
      ⟨told.toNat, fun _ same => Option.some.inj same ▸ rfl, (cons_iff.mp all).2⟩
    intro census'' _ ended
    rcases ended with ⟨rfl, level, expects, first, tallied', height'⟩
    have same := expects told rfl
    subst same
    rw [if_neg (by simp)] at height'
    exact ⟨rfl, cons_iff.mpr ⟨others, first⟩, tallied.trans tallied', height'.trans height⟩

theorem acceptable_inner {level : Nat} {separators : List K} {pointers : List PageId}
    {range : Range K} {census census' : Census} {content : PageId → Page}
    (node : tree.nodes content page = .inner (level + 1) separators pointers)
    (some : pointers ≠ []) (unseen : page ∉ census.seen)
    (seen : ∀ p, p ∈ census'.seen ↔ p ∈ census.seen ∨ p = page) :
    Acceptable tree content (level + 1) range page census ↔
      InnerSound tree.capacities range separators pointers ∧
        AllAcceptable tree content level (pointers.zip (subranges range separators)) census' := by
  have one_more := Node.one_more_of_inner node some
  have length := one_more.trans (length_subranges range separators).symm
  have listed : pages (tree.nodes content) (level + 1) page = page ::
      ((pointers.zip (subranges range separators)).flatMap fun pair =>
        pages (tree.nodes content) level pair.1) := by
    rw [flatMap_zip length, pages, node]
    rfl
  constructor
  · intro given
    rcases given with ⟨⟨separators', pointers', node', sound, chain⟩, nodup, fresh⟩
    obtain ⟨-, rfl, rfl⟩ := Node.inner.inj (node.symm.trans node')
    rw [listed] at nodup fresh
    obtain ⟨not_below, nodup⟩ := List.nodup_cons.mp nodup
    refine ⟨sound, (chain_iff one_more).mp chain, nodup, fun p mem met => ?_⟩
    rcases (seen p).mp met with met | rfl
    · exact fresh p (List.mem_cons_of_mem _ mem) met
    · exact not_below mem
  · intro given
    rcases given with ⟨sound, below⟩
    refine ⟨⟨_, _, node, sound, (chain_iff one_more).mpr below.sound⟩, ?_, ?_⟩
    · rw [listed]
      refine List.nodup_cons.mpr ⟨fun mem => ?_, below.nodup⟩
      exact below.unseen page mem ((seen page).mpr (.inr rfl))
    · rw [listed]
      intro p mem
      rcases List.mem_cons.mp mem with rfl | mem
      · exact unseen
      · exact fun met => below.unseen p mem ((seen p).mpr (.inl met))

/-- What the check of a page does once the page is noted: it adds the tree that is there at a level,
or tells why not. -/
def AddsNoted (tree : Tree K V) (ground : Ground) (scene : Scene) (range : Range K) (page : PageId)
    (census census₁ : Census) (level : Nat) (check : Access Census) : Prop :=
  Ensures ground (Refused scene (Acceptable tree scene.content level range page census)) check
    (fun census' scene' => scene' = scene ∧
      Acceptable tree scene.content level range page census ∧
      Tallied (tree.nodes scene.content) (pages (tree.nodes scene.content) level page)
        census census' ∧
      census'.shape.height = census₁.shape.height) scene

section Noted

variable {census census₁ : Census} {range : Range K}

theorem checkLeaf_adds (suitable : tree.capacities.Suitable K V) (unseen : page ∉ census.seen)
    (noted : Noted page census census₁) {listed : List (K × V)}
    (node : tree.nodes scene.content page = .leaf listed) :
    AddsNoted tree ground scene range page census census₁ 0
      (tree.checkLeaf page (scene.content page) listed.length range census₁) := by
  refine checkLeaf_ensures suitable node (fun acceptable => ?_) fun sound => ?_
  · obtain ⟨listed', node', sound⟩ := acceptable.sound
    cases node.symm.trans node'
    exact sound
  · refine ⟨rfl, ⟨⟨listed, node, sound⟩, List.nodup_singleton page, fun p mem => ?_⟩,
      noted.leaf node, rfl⟩
    rw [List.mem_singleton.mp mem]
    exact unseen

theorem checkInner_adds (suitable : tree.capacities.Suitable K V) (unseen : page ∉ census.seen)
    (noted : Noted page census census₁) {level depth : Nat} {told : UInt16}
    (down : told.toNat = level) {separators : List K} {pointers : List PageId}
    (node : tree.nodes scene.content page = .inner (level + 1) separators pointers)
    (below : ∀ child ∈ pointers, ∀ r, Adds tree ground scene (some told) r child
      (tree.validateFrom depth child (some told) r)) :
    AddsNoted tree ground scene range page census census₁ (level + 1) (do
      let children ← tree.checkInner page (scene.content page) pointers.length range
      let census := { census₁ with shape.inners := census₁.shape.inners + 1 }
      children.foldrM (fun (child, range) census =>
        tree.validateFrom depth child (some told) range census) census) := by
  rw [AddsNoted, Ensures.bind_iff]
  refine checkInner_ensures suitable node (fun acceptable => ?_) fun sound some => ?_
  · obtain ⟨separators', pointers', node', sound, chain⟩ := acceptable.sound
    obtain ⟨-, rfl, rfl⟩ := Node.inner.inj (node.symm.trans node')
    exact ⟨sound, List.ne_nil_of_length_pos (by rw [chain.length_eq]; omega)⟩
  · have inner_iff : Acceptable tree scene.content (level + 1) range page census ↔
        InnerSound tree.capacities range separators pointers ∧
          AllAcceptable tree scene.content level (pointers.zip (subranges range separators))
            { census₁ with shape.inners := census₁.shape.inners + 1 } :=
      acceptable_inner node some unseen noted.seen
    have one_more := Node.one_more_of_inner node some
    refine Ensures.imp
      (foldrM_ensures (fun pair mem => below pair.1 (List.of_mem_zip mem).1 pair.2) _) ?_
      fun error scene' => Refused.imp fun acceptable => ?_
    · intro census' _ ended
      rcases ended with ⟨rfl, all, tallied, height⟩
      rw [down] at all tallied
      rw [flatMap_zip (one_more.trans (length_subranges range separators).symm)] at tallied
      refine ⟨rfl, inner_iff.mpr ⟨sound, all⟩, ?_, height⟩
      rw [pages, node]
      exact noted.inner node tallied
    · rw [down]
      exact (inner_iff.mp acceptable).2

theorem checkNode_adds (suitable : tree.capacities.Suitable K V) (unseen : page ∉ census.seen)
    (noted : Noted page census census₁) {depth : Nat}
    (below : ∀ child ∈ (tree.nodes scene.content page).pointers, ∀ r,
      Adds tree ground scene (some ((Header.of (scene.content page)).level - 1)) r child
        (tree.validateFrom depth child (some ((Header.of (scene.content page)).level - 1)) r)) :
    AddsNoted tree ground scene range page census census₁
      (Header.of (scene.content page)).level.toNat
      (if (Header.of (scene.content page)).isLeaf then
        tree.checkLeaf page (scene.content page) (Header.of (scene.content page)).count.toNat
          range census₁
      else do
        let children ← tree.checkInner page (scene.content page)
          (Header.of (scene.content page)).count.toNat range
        let census := { census₁ with shape.inners := census₁.shape.inners + 1 }
        children.foldrM (fun (child, range) census =>
          tree.validateFrom depth child (some ((Header.of (scene.content page)).level - 1)) range
            census) census) := by
  rcases Node.of_cases (K := K) (V := V) tree.capacities (scene.content page) with
    ⟨listed, node⟩ | ⟨separators, pointers, node⟩
  · rw [Node.isLeaf_of_leaf node, if_pos rfl, Node.count_of_leaf node,
      (Node.of_eq_leaf_iff.mp node).1]
    exact checkLeaf_adds suitable unseen noted node
  · obtain ⟨level, number⟩ : ∃ level, (Header.of (scene.content page)).level.toNat = level + 1 :=
      Nat.exists_eq_succ_of_ne_zero (Nat.pos_iff_ne_zero.mp (Node.level_pos node))
    have told : ((Header.of (scene.content page)).level - 1).toNat = level := by
      rw [toNat_pred (by omega), number, Nat.add_sub_cancel]
    rw [number] at node ⊢
    have here : tree.nodes scene.content page = .inner (level + 1) separators pointers := node
    rw [here] at below
    rw [Node.isLeaf_of_inner node, if_neg Bool.false_ne_true, Node.count_of_inner node]
    exact checkInner_adds suitable unseen noted told here below

theorem AddsNoted.adds {expected : Option UInt16} {check : Access Census}
    (added : AddsNoted tree ground scene range page census census₁
      (Header.of (scene.content page)).level.toNat check)
    (expects : Expects expected (Header.of (scene.content page)).level.toNat)
    (height : census₁.shape.height = if expected = none then
      (Header.of (scene.content page)).level.toNat + 1 else census.shape.height) :
    Ensures ground
      (Refused scene (∃ level, Expects expected level ∧
        Acceptable tree scene.content level range page census)) check
      (fun census' scene' => scene' = scene ∧ ∃ level, Expects expected level ∧
        Acceptable tree scene.content level range page census ∧
        Tallied (tree.nodes scene.content) (pages (tree.nodes scene.content) level page)
          census census' ∧
        census'.shape.height = if expected = none then level + 1 else census.shape.height)
      scene := by
  refine Ensures.imp added ?_ fun error scene' => Refused.imp ?_
  · rintro census' _ ⟨rfl, acceptable, tallied, same⟩
    exact ⟨rfl, _, expects, acceptable, tallied, same.trans height⟩
  · rintro ⟨level, -, acceptable⟩
    rw [acceptable.sound.level_eq]
    exact acceptable

end Noted

/-- The page may be at a level that lets a validation of this depth end. -/
def Deep (depth : Nat) (expected : Option UInt16) : Prop :=
  ∀ level, level < 65536 → Expects expected level → level < depth

theorem Deep.child {content : PageId → Page} {depth : Nat} {expected : Option UInt16}
    (deep : Deep (depth + 1) expected)
    (expects : Expects expected (Header.of (content page)).level.toNat) {child : PageId}
    (mem : child ∈ (tree.nodes content page).pointers) :
    Deep depth (some ((Header.of (content page)).level - 1)) := by
  intro level _ told
  have shallow := deep _ (Header.of (content page)).level.toNat_lt expects
  rcases Node.of_cases (K := K) (V := V) tree.capacities (content page) with
    ⟨listed, node⟩ | ⟨separators, pointers, node⟩
  · rw [nodes, node] at mem
    exact absurd mem List.not_mem_nil
  · have pos := Node.level_pos node
    have less := told _ rfl
    rw [toNat_pred pos] at less
    omega

theorem validateFrom_adds (suitable : tree.capacities.Suitable K V) (bare : scene.holds = [])
    (one : 1 ≤ ground.limit) {depth : Nat} {expected : Option UInt16} {range : Range K}
    (mine : ∀ p, Reaches (tree.nodes scene.content) page p → ground.mine p)
    (deep : Deep depth expected) :
    Adds tree ground scene expected range page (tree.validateFrom depth page expected range) := by
  intro census
  induction depth generalizing page expected range census with
  | zero =>
    exfalso
    cases expected with
    | none => exact absurd (deep 0 (by decide) (expects_none 0)) (by decide)
    | some told =>
      have := deep told.toNat told.toNat_lt fun _ same => Option.some.inj same ▸ rfl
      omega
  | succ depth ih =>
    rw [validateFrom]
    by_cases met : page ∈ census.seen
    · rw [if_pos met]
      refine Ensures.bind_iff.mpr (Ensures.error_iff.mpr (refused_corrupted _ ?_))
      intro given
      rcases given with ⟨level, -, acceptable⟩
      exact acceptable.unseen page (mem_pages_self _ _ _) met
    · rw [if_neg met]
      have here := mine page .here
      apply Ensures.andThen (visit_ensures bare here one refused_fault)
      intro bytes scene' ended
      rcases ended with ⟨rfl, rfl⟩
      refine Ensures.bind_iff.mpr ((Ensures.ofNode_iff (Node.header_eq suitable _)).mpr ?_)
      have noted (height : Nat) : Noted page census
          ⟨census.seen.insert page, { census.shape with height }⟩ :=
        ⟨mem_insert_seen census page, rfl, rfl, rfl⟩
      have below (expects : Expects expected (Header.of (scene'.content page)).level.toNat) :
          ∀ child ∈ (tree.nodes scene'.content page).pointers, ∀ r,
            Adds tree ground scene' (some ((Header.of (scene'.content page)).level - 1)) r child
              (tree.validateFrom depth child
                (some ((Header.of (scene'.content page)).level - 1)) r) := by
        intro child mem r census
        exact ih (fun p reached => mine p (.of_child mem reached)) (deep.child expects mem) census
      cases expected with
      | none =>
        refine Ensures.bind_iff.mpr (Ensures.pure_iff.mpr ?_)
        exact (checkNode_adds suitable met (noted _) (below (expects_none _))).adds
          (expects_none _) (if_pos rfl).symm
      | some told =>
        by_cases expected : told = (Header.of (scene'.content page)).level
        · have expects : Expects (some told) (Header.of (scene'.content page)).level.toNat :=
            fun _ same => Option.some.inj same ▸ congrArg UInt16.toNat expected
          simp only [if_pos expected]
          refine Ensures.bind_iff.mpr (Ensures.pure_iff.mpr ?_)
          exact (checkNode_adds suitable met (noted _) (below expects)).adds expects
            (if_neg (Option.some_ne_none _)).symm
        · simp only [if_neg expected]
          refine Ensures.bind_iff.mpr (Ensures.error_iff.mpr (refused_corrupted _ ?_))
          intro given
          rcases given with ⟨level, expects, acceptable⟩
          refine expected (UInt16.toNat_inj.mp ?_)
          rw [expects told rfl, acceptable.sound.level_eq]

/-- The pages below a root form a tree: its nodes are sound, and no page occurs twice. -/
structure WellFormed (tree : Tree K V) (content : PageId → Page) (level : Nat) (root : PageId) :
    Prop where
  sound : Sound tree.capacities (tree.nodes content) level .all root
  nodup : (pages (tree.nodes content) level root).Nodup

def shapeAt (nodes : Nodes K V) (level : Nat) (root : PageId) : Shape where
  height := level + 1
  leaves := (pages nodes level root).countP fun p => (nodes p).isLeaf
  inners := (pages nodes level root).countP fun p => !(nodes p).isLeaf
  entries := (entries nodes level root).length

/-- The tree of the anchor is well-formed and has this shape and these entries, none without a
root. -/
structure Reads (tree : Tree K V) (content : PageId → Page) (shape : Shape) (held : List (K × V)) :
    Prop where
  bare : tree.anchor.root = none → shape = ⟨0, 0, 0, 0⟩ ∧ held = []
  rooted : ∀ root, tree.anchor.root = some root → ∃ level, tree.WellFormed content level root ∧
    shape = shapeAt (tree.nodes content) level root ∧ held = entries (tree.nodes content) level root

namespace Reads

variable {content : PageId → Page} {root : PageId} {level : Nat}

theorem of_bare (unanchored : tree.anchor.root = none) : tree.Reads content ⟨0, 0, 0, 0⟩ [] := by
  refine ⟨fun _ => ⟨rfl, rfl⟩, fun root anchored => ?_⟩
  cases unanchored.symm.trans anchored

theorem of_rooted (anchored : tree.anchor.root = some root)
    (well_formed : tree.WellFormed content level root) :
    tree.Reads content (shapeAt (tree.nodes content) level root)
      (entries (tree.nodes content) level root) := by
  refine ⟨fun unanchored => ?_, fun other anchored' => ?_⟩
  · cases unanchored.symm.trans anchored
  · cases anchored.symm.trans anchored'
    exact ⟨level, well_formed, rfl, rfl⟩

end Reads

/-- The pages below the root, if there is one, form a tree. -/
def IsTree (tree : Tree K V) (content : PageId → Page) : Prop :=
  ∀ root, tree.anchor.root = some root → ∃ level, tree.WellFormed content level root

theorem isTree_iff {content : PageId → Page} :
    tree.IsTree content ↔ ∃ shape held, tree.Reads content shape held := by
  constructor
  · intro is_tree
    cases anchored : tree.anchor.root with
    | none => exact ⟨_, _, .of_bare anchored⟩
    | some root =>
      obtain ⟨level, well_formed⟩ := is_tree root anchored
      exact ⟨_, _, .of_rooted anchored well_formed⟩
  · rintro ⟨shape, held, reads⟩ root anchored
    obtain ⟨level, well_formed, -⟩ := reads.rooted root anchored
    exact ⟨level, well_formed⟩

theorem validate_ensures (suitable : tree.capacities.Suitable K V) {content : PageId → Page}
    (one : 1 ≤ ground.limit)
    (mine : ∀ root, tree.anchor.root = some root → ∀ p, Reaches (tree.nodes content) root p →
      ground.mine p) :
    Ensures ground
      (Refused ⟨tree.anchor, content, []⟩ (∃ shape held, tree.Reads content shape held))
      tree.validate
      (fun shape scene => scene = ⟨tree.anchor, content, []⟩ ∧
        ∃ held, tree.Reads content shape held)
      ⟨tree.anchor, content, []⟩ := by
  rw [validate]
  cases anchored : tree.anchor.root with
  | none => exact Ensures.pure_iff.mpr ⟨rfl, [], .of_bare anchored⟩
  | some root =>
    have deep : Deep depthBound none := fun level low _ => low
    have adds : Adds tree ground ⟨tree.anchor, content, []⟩ none .all root
        (tree.validateFrom depthBound root none .all) :=
      validateFrom_adds suitable rfl one (mine root anchored) deep
    refine Ensures.bind_iff.mpr (Ensures.imp (adds ⟨∅, ⟨0, 0, 0, 0⟩⟩) ?_ fun error scene =>
      Refused.imp ?_)
    · intro census _ ended
      rcases ended with ⟨rfl, level, -, acceptable, tallied, height⟩
      have shape_eq : shapeAt (tree.nodes content) level root = census.shape := by
        have leaves := tallied.leaves.trans (Nat.zero_add _)
        have inners := tallied.inners.trans (Nat.zero_add _)
        have entries := tallied.entries.trans (Nat.zero_add _)
        rw [if_pos rfl] at height
        rw [shapeAt, acceptable.sound.entries_eq_flatMap, ← leaves, ← inners, ← entries, ← height]
      have reads := Reads.of_rooted anchored ⟨acceptable.sound, acceptable.nodup⟩
      rw [shape_eq] at reads
      exact Ensures.pure_iff.mpr ⟨rfl, _, reads⟩
    · intro given
      rcases given with ⟨shape, held, reads⟩
      obtain ⟨level, well_formed, -⟩ := reads.rooted root anchored
      exact ⟨level, expects_none level, well_formed.sound, well_formed.nodup, by simp⟩

end PagedIndex.Tree
