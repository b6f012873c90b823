import BitcoinCrawl.Proofs.Crawl.Saving

set_option autoImplicit false

/-! # Saves never go backwards

Whoever saves takes the lock before they read the records, and the lock goes with the save until it is over. So
records are saved in the order in which they were read, one save after the other, and as a registry only grows,
every save goes on from the one before. The main theorem (`saves_in_order`) says so of everything that can
happen to a publisher, and that neither a tick that skips its save nor the fate of a snapshot makes a difference
to any save. -/

namespace BitcoinCrawl

namespace Registry

/-! ## Records read one after the other -/

variable {r : Registry} {e : Endpoint}

/-- One list of records has another as its initial part, except that pings were counted meanwhile. No count is
    lowered unless some node has answered more pings than 64 bits can count. -/
def Continues (calls : List Call) (earlier later : List NodeRecord) : Prop :=
  ∃ kept added, later = kept ++ added ∧ List.Forall₂ (fun record record' =>
    record' = { record with pingCount := record'.pingCount } ∧
      ((∀ e, ({} : Registry).answersAll e calls < UInt64.size) → record.pingCount ≤ record'.pingCount))
    earlier kept

theorem continues {before after calls : List Call} (hafter : before <+: after) (hcalls : after <+: calls) :
    Continues calls (performAll {} before).goodRecords (performAll {} after).goodRecords := by
  obtain ⟨more, rfl⟩ := hafter
  obtain ⟨rest, rfl⟩ := hcalls
  have hc := consistent_empty.performAll before
  have hrun := performAll_append {} before more
  obtain ⟨good, hgood⟩ : (performAll {} before).good.toList <+: (performAll {} (before ++ more)).good.toList :=
    hrun ▸ (hc.performAll_grew more).good
  let now := fun e => ((performAll {} (before ++ more)).node? e).map Node.record
  refine ⟨(performAll {} before).good.toList.filterMap now, good.filterMap now, ?_,
    forall₂_records fun e he => ?_⟩
  · rw [goodRecords, ← hgood, List.filterMap_append]
  · obtain ⟨n, n', hn, hn', hs, hcontinued⟩ := hc.good_continued more he
    refine ⟨n, n', hn, hrun ▸ hn', hcontinued.record (by rw [hs]; rfl), fun hfits => ?_⟩
    refine hcontinued.pingCount_le ?_
    have hcount := consistent_empty.performAll_pingCount before (by simp [node?]) hn
    have hall := hfits e
    rw [answersAll_append, answersAll_append] at hall
    rw [hcount, UInt64.toNat_ofNat']
    have hmod := Nat.mod_le (({} : Registry).answersAll e before) (2 ^ 64)
    omega

end Registry

variable {world : World}

/-! ## What makes no difference -/

/-- A crawl but for its log and its snapshots. -/
def Crawl.mute (c : Crawl) : Crawl :=
  { c with shared := { c.shared with log := #[] }, snapshots := { capacity := 0 }, received := #[] }

theorem Crawl.mute_publish (c : Crawl) : c.publish.mute = c.mute := by
  unfold publish
  dsimp only
  split <;> rfl

/-- What the publisher does depends neither on the log nor on the snapshots. -/
theorem Crawl.mute_stepPublisher (world : World) (c : Crawl) :
    (c.stepPublisher world).1.mute = (c.mute.stepPublisher world).1.mute := by
  have hserve : ∀ publisher : Publisher,
      ({ c.publish with publisher } : Crawl).mute = ({ c.mute.publish with publisher } : Crawl).mute := by
    intro publisher
    show ({ c.publish.mute with publisher } : Crawl) = { c.mute.publish.mute with publisher }
    rw [mute_publish, mute_publish]
    rfl
  -- Hypotheses, and not lemmas that hold by `rfl`, so that both sides decide the same by the same instance.
  have hphase : c.mute.publisher = c.publisher := rfl
  have hlock : c.mute.lock = c.lock := rfl
  have hsettled : c.mute.settled = c.settled := rfl
  have hcancelled : c.mute.shared.cancelled = c.shared.cancelled := rfl
  have hnow : c.mute.shared.now = c.shared.now := rfl
  have hregistry : c.mute.shared.registry = c.shared.registry := rfl
  cases hpublisher : c.publisher with
  | ticking next =>
      simp only [stepPublisher, hphase, hpublisher, stepTicking, hcancelled, hnow, hregistry]
      split_ifs
      · rfl
      · exact hserve _
      · exact hserve _
      · rfl
  | storing next =>
      simp only [stepPublisher, hphase, hpublisher, stepStoring, hlock]
      split <;> rfl
  | settling =>
      simp only [stepPublisher, hphase, hpublisher, stepSettling, hsettled]
      split <;> rfl
  | flushing =>
      simp only [stepPublisher, hphase, hpublisher, stepFlushing, hlock, hregistry]
      split
      · rfl
      · split_ifs <;> rfl
      · rfl
  | finishing =>
      simp only [stepPublisher, hphase, hpublisher, stepFinishing, hlock]
      split <;> rfl
  | starting | exited | crashed =>
      simp only [stepPublisher, hphase, hpublisher]
      rfl

/-- The publisher is about to start a save. -/
def Crawl.StartsSave (world : World) (c : Crawl) : Prop :=
  world.persistence.isSome = true ∧ ((∃ next, c.publisher = .storing next) ∨ c.publisher = .flushing)

theorem Crawl.StartsSave.afoot {c : Crawl} (h : c.StartsSave world) : c.publisher ≠ .exited := by
  obtain ⟨-, ⟨next, hstoring⟩ | hflushing⟩ := h
  · simp [hstoring]
  · simp [hflushing]

namespace Saving

variable {s s' : Saving}

def mute (s : Saving) : Saving := { s with crawl := s.crawl.mute }

theorem mute_stepPublisher (world : World) (s : Saving) :
    (s.stepPublisher world).mute = (s.mute.stepPublisher world).mute := by
  have hcoarse : ({ s with crawl := (s.crawl.stepPublisher world).1 } : Saving).mute
      = ({ s.mute with crawl := (s.mute.crawl.stepPublisher world).1 } : Saving).mute := by
    show ({ s with crawl := (s.crawl.stepPublisher world).1.mute } : Saving)
      = { s with crawl := (s.crawl.mute.stepPublisher world).1.mute }
    rw [Crawl.mute_stepPublisher]
  have hphase : s.mute.crawl.publisher = s.crawl.publisher := rfl
  have hlock : s.mute.crawl.lock = s.crawl.lock := rfl
  have hgrip : s.mute.grip = s.grip := rfl
  simp only [stepPublisher, hphase]
  split
  case h_1 next p hpublisher persistence =>
    simp only [stepStoring, hgrip, hlock]
    split
    · split_ifs
      · rfl
      · simp only [Crawl.stepPublisher, hphase, hpublisher] at hcoarse
        exact hcoarse
    · rfl
    · rfl
  case h_2 =>
    simp only [stepFlushing, hgrip, hlock]
    split
    · split_ifs <;> rfl
    · rfl
    · split_ifs <;> rfl
  case h_3 => exact hcoarse

/-- Nothing that happens depends on the log or the snapshots, except for these. -/
theorem mute_move (world : World) (s : Saving) (m : Move) :
    (s.move world m).mute = (s.mute.move world m).mute := by
  have hlock : s.mute.crawl.lock = s.crawl.lock := rfl
  have hgrip : s.mute.grip = s.grip := rfl
  have hjobs : s.mute.jobs = s.jobs := rfl
  have houtside : s.mute.outside = s.outside := rfl
  cases m with
  | publisher => exact s.mute_stepPublisher world
  | job i =>
      simp only [move, hjobs]
      split
      · unfold stepJob
        split <;> rfl
      · rfl
  | call | world => rfl
  | abort =>
      simp only [move, abort, hgrip]
      split_ifs <;> rfl
  | seize =>
      simp only [move, hlock]
      split_ifs <;> rfl
  | yield =>
      simp only [move, houtside]
      split_ifs <;> rfl

theorem mute_run (h : s.mute = s'.mute) (moves : List Move) :
    (s.run world moves).mute = (s'.run world moves).mute := by
  induction moves generalizing s s' with
  | nil => exact h
  | cons m rest ih =>
      refine ih ?_
      rw [mute_move, h, ← mute_move]

/-- A save that is skipped changes nothing. -/
theorem mute_skipped {next : Nat} (hpublisher : s.crawl.publisher = .storing next) (hgrip : s.grip = .empty)
    (busy : s.crawl.lock ≠ .free) : (s.move world .publisher).mute = (s.setPublisher (.ticking next)).mute := by
  have hstep : s.move world .publisher = { s with crawl := (s.crawl.stepStoring world next).1 } := by
    cases hp : world.persistence with
    | none => simp only [move, stepPublisher, hpublisher, hp, Crawl.stepPublisher]
    | some p => simp only [move, stepPublisher, hpublisher, hp, stepStoring, hgrip, if_neg busy]
  rw [hstep]
  simp only [Crawl.stepStoring]
  split
  · rfl
  · contradiction
  · rfl

/-- A tick does nothing but decide whether a save is due, whatever becomes of its snapshot. -/
theorem mute_tick {next : Nat} (hpublisher : s.crawl.publisher = .ticking next)
    (afoot : s.crawl.shared.cancelled = false) (due : next ≤ s.crawl.shared.now) :
    (s.move world .publisher).mute = (s.setPublisher
      (if 0 < s.crawl.shared.registry.counts.good then
        .storing (Crawl.tickAfter world.config.snapshotInterval next s.crawl.shared.now)
      else .ticking (Crawl.tickAfter world.config.snapshotInterval next s.crawl.shared.now))).mute := by
  simp only [move, stepPublisher, hpublisher, Crawl.stepPublisher, Crawl.stepTicking, afoot, if_pos due,
    Bool.false_eq_true, if_false]
  generalize (if 0 < s.crawl.shared.registry.counts.good then _ else _) = publisher
  show { s with crawl := { s.crawl.publish.mute with publisher } } = { s with crawl := { s.crawl.mute with publisher } }
  rw [Crawl.mute_publish]

/-! ## What is always true -/

/-- Records that were read and have not been passed to a save. -/
def pending (s : Saving) : List (List NodeRecord) :=
  (s.jobs.filter (·.phase = .waiting)).map Job.records ++ s.grip.list

/-- The records of a save that runs. -/
def inWork (s : Saving) : List (List NodeRecord) := (s.jobs.filter (·.phase = .running)).map Job.records

/-- What is true of the saves of a crawl, of whose registry these calls were made. -/
structure Sound (world : World) (before : Archive) (made : List Registry.Call) (s : Saving) : Prop where
  registry : s.crawl.shared.registry = .performAll {} made
  /-- The lock is with somebody outside, with the publisher, or with the only save that is not over. -/
  held : s.outside.toNat + s.grip.isLocking.toNat + s.jobs.length = if s.crawl.lock = .free then 0 else 1
  /-- The publisher has got something only while it starts a save. -/
  gripped : s.grip = .empty ∨ s.crawl.StartsSave world
  order : s.passed ++ s.pending <+: s.read
  complete : s.crawl.publisher = .exited ∨ s.passed ++ s.pending = s.read
  /-- Each of the lists was read after some of the calls, and after those of the list before. -/
  stamped : ∃ stamps : List (List Registry.Call),
    s.read = stamps.map (fun calls => (Registry.performAll {} calls).goodRecords) ∧
      stamps.Pairwise (· <+: ·) ∧ ∀ stamp ∈ stamps, stamp <+: made
  due : ∀ next, s.crawl.publisher = .storing next →
    s.crawl.shared.registry.goodRecords ≠ [] ∧ [] ∉ s.grip.list
  filled : [] ∉ s.passed ∧ ∀ job ∈ s.jobs, job.records ≠ []
  settled : s.passed = s.saved ++ s.inWork
  /-- The archive is what the saves have made of it, one after the other. -/
  stored : s.crawl.archive = s.saved.foldl (store world) before

namespace Sound

variable {before : Archive} {made : List Registry.Call}

/-! ### The lock -/

/-- Whoever has not got the lock while it is free is nobody. -/
theorem unheld (hs : Sound world before made s) (free : s.crawl.lock = .free) :
    s.outside = false ∧ s.grip = .empty ∧ s.jobs = [] := by
  have hheld := hs.held
  rw [if_pos free] at hheld
  refine ⟨by simpa using Nat.eq_zero_of_add_eq_zero_right (Nat.eq_zero_of_add_eq_zero_right hheld), ?_,
    List.eq_nil_of_length_eq_zero (Nat.eq_zero_of_add_eq_zero_left hheld)⟩
  have hgrip : s.grip.isLocking.toNat = 0 := by omega
  exact Grip.isLocking_eq_false.mp (by simpa using hgrip)

/-- While the publisher has got the lock nobody else has. -/
theorem heldByPublisher (hs : Sound world before made s) (locking : s.grip.isLocking = true) :
    s.outside = false ∧ s.jobs = [] ∧ s.crawl.lock ≠ .free := by
  have hheld := hs.held
  rw [locking] at hheld
  split_ifs at hheld with hfree
  · simp at hheld
  · have hnone : s.outside.toNat + s.jobs.length = 0 := by
      simp at hheld
      omega
    exact ⟨by simpa using Nat.eq_zero_of_add_eq_zero_right hnone,
      List.eq_nil_of_length_eq_zero (Nat.eq_zero_of_add_eq_zero_left hnone), hfree⟩

/-- A save that is not over is the only one, and nobody else has the lock. -/
theorem heldByJob (hs : Sound world before made s) {i : Nat} {job : Job} (hi : s.jobs[i]? = some job) :
    i = 0 ∧ s.jobs = [job] ∧ s.outside = false ∧ s.grip = .empty ∧ s.crawl.lock ≠ .free := by
  obtain ⟨hlt, hget⟩ := List.getElem?_eq_some_iff.mp hi
  have hheld := hs.held
  split_ifs at hheld with hfree
  · omega
  · obtain ⟨one, hone⟩ : ∃ one, s.jobs = [one] := List.length_eq_one_iff.mp (by omega)
    have hzero : i = 0 := by
      rw [hone] at hlt
      simpa using hlt
    subst hzero
    have hjob : one = job := by simpa [hone] using hi
    rw [hone, List.length_singleton] at hheld
    have houtside : s.outside.toNat = 0 := by omega
    have hgrip : s.grip.isLocking.toNat = 0 := by omega
    exact ⟨rfl, hjob ▸ hone, by simpa using houtside, Grip.isLocking_eq_false.mp (by simpa using hgrip), hfree⟩

theorem jobs_length_le (hs : Sound world before made s) : s.jobs.length ≤ 1 := by
  have hheld := hs.held
  split_ifs at hheld <;> omega

/-! ### What others do -/

/-- A call of the registry comes after all lists that were read before. -/
theorem call (hs : Sound world before made s) (call : Registry.Call) :
    Sound world before (made ++ [call]) (s.move world (.call call)) := by
  obtain ⟨stamps, hread, hordered, hmade⟩ := hs.stamped
  have hc := Registry.consistent_empty.performAll made
  have hregistry : (s.move world (.call call)).crawl.shared.registry = .performAll {} (made ++ [call]) := by
    rw [Registry.performAll_append, ← hs.registry]
    rfl
  refine { hs with registry := hregistry, stamped := ⟨stamps, hread, hordered, ?_⟩, due := fun next hnext => ?_ }
  · exact fun stamp hstamp => (hmade stamp hstamp).trans (List.prefix_append _ _)
  · obtain ⟨hsome, hgrip⟩ := hs.due next hnext
    refine ⟨?_, hgrip⟩
    rw [hs.registry] at hsome
    have hmore := hc.goodRecords_ne_nil [call] hsome
    show (s.crawl.shared.registry.perform call).goodRecords ≠ []
    rw [hs.registry]
    exact hmore

theorem others (hs : Sound world before made s) (c : Crawl) : Sound world before made (s.move world (.world c)) :=
  { hs with }

theorem seize (hs : Sound world before made s) : Sound world before made (s.move world .seize) := by
  simp only [move]
  split_ifs with free
  · obtain ⟨-, hgrip, hjobs⟩ := hs.unheld free
    refine { hs with held := ?_ }
    simp [setLock, hgrip, hjobs]
  · exact hs

theorem yield (hs : Sound world before made s) : Sound world before made (s.move world .yield) := by
  simp only [move]
  split_ifs with houtside
  · refine { hs with held := ?_ }
    have hheld := hs.held
    rw [houtside] at hheld
    simp only [setLock, if_true, Bool.toNat_false, Bool.toNat_true] at hheld ⊢
    split_ifs at hheld <;> omega
  · exact hs

/-! ### The publisher -/

theorem grasp (hs : Sound world before made s) (free : s.crawl.lock = .free)
    (hstarts : s.crawl.StartsSave world) : Sound world before made s.grasp := by
  obtain ⟨houtside, hgrip, hjobs⟩ := hs.unheld free
  have hpending : s.grasp.pending = s.pending := by
    simp [pending, Saving.grasp, setLock, hgrip]
  refine { hs with held := ?_, gripped := .inr hstarts, order := ?_, complete := ?_, due := ?_ }
  · simp [Saving.grasp, setLock, houtside, hjobs]
  · rw [hpending]
    exact hs.order
  · rw [hpending]
    exact hs.complete
  · exact fun next hnext => ⟨(hs.due next hnext).1, List.not_mem_nil⟩

theorem look (hs : Sound world before made s) (hgrip : s.grip = .lock) : Sound world before made s.look := by
  obtain ⟨houtside, hjobs, -⟩ := hs.heldByPublisher (by rw [hgrip]; rfl)
  have hstarts : s.crawl.StartsSave world := hs.gripped.resolve_left (by simp [hgrip])
  obtain ⟨stamps, hread, hordered, hmade⟩ := hs.stamped
  have hall : s.passed = s.read := by
    have hcomplete := hs.complete.resolve_left hstarts.afoot
    simpa [pending, hjobs, hgrip] using hcomplete
  have hnow : s.look.passed ++ s.look.pending = s.look.read := by
    simp [Saving.look, pending, hjobs, hall]
  refine { hs with held := ?_, gripped := .inr hstarts, order := ?_, complete := .inr hnow, stamped := ?_,
                   due := ?_ }
  · have hheld := hs.held
    rw [hgrip] at hheld
    exact hheld
  · exact hnow ▸ List.prefix_rfl
  · refine ⟨stamps ++ [made], ?_, ?_, ?_⟩
    · simp [Saving.look, hread, hs.registry]
    · exact List.pairwise_append.mpr ⟨hordered, List.pairwise_singleton _ _, by simpa using hmade⟩
    · intro stamp hstamp
      rcases List.mem_append.mp hstamp with hearlier | hlast
      · exact hmade stamp hearlier
      · exact List.mem_singleton.mp hlast ▸ List.prefix_rfl
  · intro next hnext
    have hsome := (hs.due next hnext).1
    exact ⟨hsome, fun hnone => hsome (List.mem_singleton.mp hnone).symm⟩

theorem handOver (hs : Sound world before made s) {records : List NodeRecord} (hgrip : s.grip = .loaded records)
    (hsome : records ≠ []) {publisher : Publisher} (hpublisher : ∀ next, publisher ≠ .storing next) :
    Sound world before made ((s.handOver records).setPublisher publisher) := by
  obtain ⟨houtside, hjobs, -⟩ := hs.heldByPublisher (by rw [hgrip]; rfl)
  have hafoot := (hs.gripped.resolve_left (by simp [hgrip])).afoot
  have hpending : ((s.handOver records).setPublisher publisher).pending = s.pending := by
    simp [pending, Saving.handOver, setPublisher, setLock, hjobs, hgrip]
  refine { hs with held := ?_, gripped := .inl rfl, order := ?_, complete := .inr ?_, due := ?_, filled := ?_,
                   settled := ?_ }
  · simp [Saving.handOver, setPublisher, setLock, houtside, hjobs]
  · rw [hpending]
    exact hs.order
  · rw [hpending]
    exact hs.complete.resolve_left hafoot
  · exact fun next hnext => absurd hnext (hpublisher next)
  · refine ⟨hs.filled.1, fun job hjob => ?_⟩
    obtain rfl : job = { records } := by simpa [Saving.handOver, setPublisher, setLock, hjobs] using hjob
    exact hsome
  · have hsettled := hs.settled
    simpa [inWork, Saving.handOver, setPublisher, setLock, hjobs] using hsettled

/-- The publisher can go away at any time, if it gives back what it has got. -/
theorem exit (hs : Sound world before made s) {c : Crawl} (hpublisher : c.publisher = .exited)
    (hregistry : c.shared.registry = s.crawl.shared.registry) (harchive : c.archive = s.crawl.archive)
    (hlock : c.lock = if s.grip.isLocking then .free else s.crawl.lock) :
    Sound world before made { s with crawl := c, grip := .empty } := by
  refine { hs with
    registry := hregistry.trans hs.registry, held := ?_, gripped := .inl rfl, order := ?_,
    complete := .inl hpublisher, due := fun next hnext => ?_, stored := harchive.trans hs.stored }
  · cases hlocking : s.grip.isLocking with
    | true =>
        obtain ⟨houtside, hjobs, -⟩ := hs.heldByPublisher hlocking
        simp [hlock, hlocking, houtside, hjobs]
    | false =>
        have hheld := hs.held
        rw [hlocking] at hheld
        simpa [hlock, hlocking] using hheld
  · refine List.IsPrefix.trans ?_ hs.order
    simp [pending]
  · cases hpublisher.symm.trans hnext

/-- A publisher that has not got the lock, and does not try to. -/
theorem uninvolved (hs : Sound world before made s) (hgrip : s.grip = .empty) {c : Crawl}
    (h : Uninvolved s.crawl c) : Sound world before made { s with crawl := c } := by
  refine { hs with
    registry := h.registry.trans hs.registry, held := ?_, gripped := .inl hgrip,
    complete := hs.complete.imp_left h.exited, due := fun next hnext => ?_, stored := h.archive.trans hs.stored }
  · rw [h.lock]
    exact hs.held
  · refine ⟨?_, ?_⟩
    · rw [h.registry, hs.registry]
      exact (Registry.consistent_empty.performAll made).goodRecords_of_counts (hs.registry ▸ h.due next hnext)
    · show [] ∉ s.grip.list
      rw [hgrip]
      exact List.not_mem_nil

theorem publisher (hs : Sound world before made s) : Sound world before made (s.move world .publisher) := by
  show Sound world before made (s.stepPublisher world)
  unfold Saving.stepPublisher
  split
  case h_1 next p hpublisher hp =>
    have hstarts : s.crawl.StartsSave world := ⟨by rw [hp]; rfl, .inl ⟨next, hpublisher⟩⟩
    unfold Saving.stepStoring
    split
    case h_1 hgrip =>
      split_ifs with hfree
      · exact hs.grasp hfree hstarts
      · refine hs.uninvolved hgrip ?_
        simp only [Crawl.stepStoring, hp]
        exact ⟨rfl, rfl, rfl, fun _ hnext => (by cases hnext), fun hexited => absurd hexited hstarts.afoot⟩
    case h_2 hgrip => exact hs.look hgrip
    case h_3 records hgrip =>
      refine hs.handOver hgrip ?_ (by simp)
      have hfilled := (hs.due next hpublisher).2
      rw [hgrip, Grip.list_loaded, List.mem_singleton] at hfilled
      exact Ne.symm hfilled
  case h_2 p hpublisher hp =>
    have hstarts : s.crawl.StartsSave world := ⟨by rw [hp]; rfl, .inr hpublisher⟩
    unfold Saving.stepFlushing
    split
    case h_1 hgrip =>
      split_ifs with hfree
      · exact hs.grasp hfree hstarts
      · exact hs
    case h_2 hgrip => exact hs.look hgrip
    case h_3 records hgrip =>
      split_ifs with hnone
      · exact hs.exit rfl rfl rfl (by simp [hgrip, Crawl.stopPublisher, Crawl.report])
      · exact hs.handOver hgrip (by simpa using hnone) (by simp)
  case h_3 hstoring hflushing =>
    have hnot : world.persistence = none ∨
        (∀ next, s.crawl.publisher ≠ .storing next) ∧ s.crawl.publisher ≠ .flushing := by
      cases hp : world.persistence with
      | none => exact .inl rfl
      | some p => exact .inr ⟨fun next hnext => hstoring next p hnext hp, fun hflush => hflushing p hflush hp⟩
    refine hs.uninvolved (hs.gripped.resolve_right fun hstarts => ?_) (uninvolved_stepPublisher hnot)
    rcases hnot with hnone | ⟨hstoring, hflushing⟩
    · simp [Crawl.StartsSave, hnone] at hstarts
    · obtain ⟨-, ⟨next, hnext⟩ | hflush⟩ := hstarts
      · exact hstoring next hnext
      · exact hflushing hflush

theorem abort (hs : Sound world before made s) : Sound world before made (s.move world .abort) := by
  have habort : s.move world .abort = { s with
      crawl := { s.crawl with lock := if s.grip.isLocking then .free else s.crawl.lock, publisher := .exited }
      grip := .empty } := by
    simp only [move, Saving.abort]
    split_ifs <;> rfl
  rw [habort]
  exact hs.exit rfl rfl rfl rfl

/-! ### The saves -/

/-- A save begins with the list that was read last. -/
theorem begin (hs : Sound world before made s) {job : Job} (hjobs : s.jobs = [job]) (hgrip : s.grip = .empty)
    (hphase : job.phase = .waiting) : Sound world before made (s.stepJob world 0 job) := by
  have hstep : s.stepJob world 0 job =
      { s with jobs := [{ job with phase := .running }], passed := s.passed ++ [job.records] } := by
    simp [stepJob, hphase, hjobs]
  have hpending : s.pending = [job.records] := by simp [pending, hjobs, hgrip, hphase]
  have hrecords : job.records ≠ [] := hs.filled.2 job (hjobs ▸ List.mem_singleton_self job)
  have hsettled : s.passed = s.saved := by simpa [inWork, hjobs, hphase] using hs.settled
  have hall : (s.passed ++ [job.records]) ++
      Saving.pending { s with jobs := [{ job with phase := .running }], passed := s.passed ++ [job.records] }
        = s.passed ++ s.pending := by
    rw [hpending]
    simp [pending, hgrip]
  rw [hstep]
  refine { hs with held := ?_, order := hall ▸ hs.order, complete := hall ▸ hs.complete, filled := ?_,
                   settled := ?_ }
  · have hheld := hs.held
    rwa [hjobs] at hheld
  · refine ⟨?_, by simpa using hrecords⟩
    simpa [hs.filled.1] using Ne.symm hrecords
  · simp [inWork, hsettled]

/-- A save that ends has changed the archive, on top of what the saves before have made of it. -/
theorem finish (hs : Sound world before made s) {job : Job} (hjobs : s.jobs = [job])
    (hphase : job.phase = .running) : Sound world before made (s.stepJob world 0 job) := by
  have hstep : s.stepJob world 0 job =
      { s with
        jobs := [{ job with phase := .returned }]
        crawl := { s.crawl with
          shared := s.crawl.shared.reportAll (storeLog world s.crawl.archive job.records)
          archive := store world s.crawl.archive job.records }
        saved := s.saved ++ [job.records] } := by
    simp [stepJob, hphase, hjobs]
  have hpending : Saving.pending { s with jobs := [{ job with phase := .returned }] } = s.pending := by
    simp [pending, hjobs, hphase]
  rw [hstep]
  refine { hs with held := ?_, order := hpending ▸ hs.order, complete := hpending ▸ hs.complete, filled := ?_,
                   settled := ?_, stored := ?_ }
  · have hheld := hs.held
    rwa [hjobs] at hheld
  · exact ⟨hs.filled.1, by simpa using hs.filled.2 job (hjobs ▸ List.mem_singleton_self job)⟩
  · simpa [inWork, hjobs, hphase] using hs.settled
  · rw [List.foldl_append, ← hs.stored]
    rfl

/-- A save that is over gives the lock back. -/
theorem release (hs : Sound world before made s) {job : Job} (hjobs : s.jobs = [job]) (hgrip : s.grip = .empty)
    (houtside : s.outside = false) (hphase : job.phase = .returned) :
    Sound world before made (s.stepJob world 0 job) := by
  have hstep : s.stepJob world 0 job = { s.setLock .free with jobs := [] } := by
    simp [stepJob, hphase, hjobs, setLock]
  have hpending : Saving.pending { s with jobs := [] } = s.pending := by simp [pending, hjobs, hphase]
  rw [hstep]
  refine { hs with held := ?_, order := hpending ▸ hs.order, complete := hpending ▸ hs.complete,
                   filled := ⟨hs.filled.1, by simp⟩, settled := ?_ }
  · simp [setLock, hgrip, houtside]
  · simpa [inWork, setLock, hjobs, hphase] using hs.settled

theorem job (hs : Sound world before made s) (i : Nat) : Sound world before made (s.move world (.job i)) := by
  cases hi : s.jobs[i]? with
  | none =>
      simp only [move, hi]
      exact hs
  | some job =>
      rw [move_job hi]
      obtain ⟨rfl, hjobs, houtside, hgrip, -⟩ := hs.heldByJob hi
      cases hphase : job.phase with
      | waiting => exact hs.begin hjobs hgrip hphase
      | running => exact hs.finish hjobs hphase
      | returned => exact hs.release hjobs hgrip houtside hphase

/-! ### Runs -/

theorem move (hs : Sound world before made s) (m : Move) :
    Sound world before (made ++ callsOf [m]) (s.move world m) := by
  cases m with
  | call call => exact hs.call call
  | publisher => exact (List.append_nil made).symm ▸ hs.publisher
  | job i => exact (List.append_nil made).symm ▸ hs.job i
  | world c => exact (List.append_nil made).symm ▸ hs.others c
  | seize => exact (List.append_nil made).symm ▸ hs.seize
  | yield => exact (List.append_nil made).symm ▸ hs.yield
  | abort => exact (List.append_nil made).symm ▸ hs.abort

theorem run (hs : Sound world before made s) (moves : List Move) :
    Sound world before (made ++ callsOf moves) (s.run world moves) := by
  induction moves generalizing s made with
  | nil => exact (List.append_nil made).symm ▸ hs
  | cons m rest ih =>
      rw [← List.singleton_append, callsOf_append, ← List.append_assoc]
      exact ih (hs.move m)

theorem start (world : World) (calls : List Registry.Call) (c : Crawl) :
    Sound world c.archive calls (start calls c) where
  registry := rfl
  held := rfl
  gripped := .inl rfl
  order := List.prefix_rfl
  complete := .inr rfl
  stamped := ⟨[], rfl, .nil, nofun⟩
  due := nofun
  filled := ⟨List.not_mem_nil, nofun⟩
  settled := rfl
  stored := rfl

/-- Lists that were read one after the other go on from each other. -/
theorem goingOn (hs : Sound world before made s) : s.read.Pairwise (Registry.Continues made) := by
  obtain ⟨stamps, hread, hordered, hmade⟩ := hs.stamped
  rw [hread, List.pairwise_map]
  refine hordered.imp_of_mem fun _ hlater hprefix => ?_
  exact Registry.continues hprefix (hmade _ hlater)

end Sound

/-! ## What is saved -/

/-- Only a save that ends adds to what is saved. -/
theorem saved_move (world : World) (s : Saving) (m : Move) : s.saved <+: (s.move world m).saved := by
  have hsame : (s.move world m).saved = s.saved → s.saved <+: (s.move world m).saved :=
    fun h => h ▸ List.prefix_rfl
  cases m with
  | publisher =>
      refine hsame ?_
      show (s.stepPublisher world).saved = s.saved
      unfold stepPublisher
      split
      · unfold stepStoring
        split
        · split_ifs <;> rfl
        · rfl
        · rfl
      · unfold stepFlushing
        split
        · split_ifs <;> rfl
        · rfl
        · split_ifs <;> rfl
      · rfl
  | job i =>
      simp only [move]
      split
      · unfold stepJob
        split
        · exact List.prefix_rfl
        · exact List.prefix_append _ _
        · exact List.prefix_rfl
      · exact List.prefix_rfl
  | call | world => exact List.prefix_rfl
  | seize =>
      refine hsame ?_
      simp only [move]
      split_ifs <;> rfl
  | yield =>
      refine hsame ?_
      simp only [move]
      split_ifs <;> rfl
  | abort =>
      refine hsame ?_
      simp only [move, abort]
      split_ifs <;> rfl

theorem saved_run (world : World) (s : Saving) (moves : List Move) : s.saved <+: (s.run world moves).saved := by
  induction moves generalizing s with
  | nil => exact List.prefix_rfl
  | cons m rest ih => exact (saved_move world s m).trans (ih (s.move world m))

/-- What is true of the saves at a moment, and from then on. -/
structure InOrder (world : World) (before : Archive) (made : List Registry.Call) (s : Saving) : Prop where
  /-- No two saves run at a time. -/
  alone : s.jobs.countP (·.phase = .running) ≤ 1
  /-- The lists that saves began with are those that were read, in the same order. -/
  inOrder : s.passed <+: s.read
  /-- Unless the publisher is gone, all others that were read are still to be saved. -/
  complete : s.crawl.publisher = .exited ∨ s.passed ++ s.pending = s.read
  /-- Each of them goes on from all before it. -/
  goingOn : s.passed.Pairwise (Registry.Continues made)
  filled : [] ∉ s.passed
  /-- What is stored is what these saves have made of what was there, one after the other. -/
  stored : s.passed = s.saved ++ s.inWork ∧ s.crawl.archive = s.saved.foldl (store world) before
  /-- Later it is changed by saves of further lists, and by nothing else. -/
  later : ∀ moves, ∃ further, (s.run world moves).saved = s.saved ++ further ∧
    (s.run world moves).crawl.archive = further.foldl (store world) s.crawl.archive
  /-- A tick that skips its save makes no difference to the registry or to what is saved later. -/
  skipped : ∀ next moves, s.crawl.publisher = .storing next → s.grip = .empty → s.crawl.lock ≠ .free →
    ((s.move world .publisher).run world moves).mute = ((s.setPublisher (.ticking next)).run world moves).mute
  /-- Nor does what becomes of the snapshot of a tick. -/
  dropped : ∀ next moves, s.crawl.publisher = .ticking next → s.crawl.shared.cancelled = false →
    next ≤ s.crawl.shared.now →
    ((s.move world .publisher).run world moves).mute = ((s.setPublisher
      (if 0 < s.crawl.shared.registry.counts.good then
        .storing (Crawl.tickAfter world.config.snapshotInterval next s.crawl.shared.now)
      else .ticking (Crawl.tickAfter world.config.snapshotInterval next s.crawl.shared.now))).run world moves).mute

theorem Sound.inOrder {before : Archive} {made : List Registry.Call} (hs : Sound world before made s) :
    InOrder world before made s := by
  have hpassed : s.passed <+: s.read := (List.prefix_append _ _).trans hs.order
  constructor
  case alone => exact Nat.le_trans List.countP_le_length hs.jobs_length_le
  case inOrder => exact hpassed
  case complete => exact hs.complete
  case goingOn => exact hs.goingOn.sublist hpassed.sublist
  case filled => exact hs.filled.1
  case stored => exact ⟨hs.settled, hs.stored⟩
  case later =>
    intro moves
    obtain ⟨further, hfurther⟩ := saved_run world s moves
    refine ⟨further, hfurther.symm, ?_⟩
    rw [(hs.run moves).stored, ← hfurther, List.foldl_append, ← hs.stored]
  case skipped =>
    intro next moves hpublisher hgrip busy
    exact mute_run (mute_skipped hpublisher hgrip busy) moves
  case dropped =>
    intro next moves hpublisher afoot due
    exact mute_run (mute_tick hpublisher afoot due) moves

/-- In a crawl, too, what is stored is what saves have made of it, each going on from the ones before. -/
theorem exists_saved (world : World) (calls : List Registry.Call) (c : Crawl) (events : List Crawl.Event) :
    ∃ (made : List Registry.Call) (saved : List (List NodeRecord)),
      ((start calls c).crawl.run world events).shared.registry = .performAll {} made ∧
      ((start calls c).crawl.run world events).archive = saved.foldl (store world) c.archive ∧
      saved.Pairwise (Registry.Continues made) ∧ [] ∉ saved := by
  have hquiet : Quiet world (Saving.start calls c) := ⟨rfl, nofun⟩
  obtain ⟨moves, hmoves, -⟩ := exists_run hquiet events
  have hs := (Sound.start world calls c).run moves
  have hsaved : (Saving.run world (start calls c) moves).saved.Sublist
      (Saving.run world (start calls c) moves).passed := by
    rw [hs.settled]
    exact List.sublist_append_left _ _
  rw [← hmoves]
  exact ⟨_, _, hs.registry, hs.stored, hs.inOrder.goingOn.sublist hsaved, fun hnil => hs.filled.1 (hsaved.mem hnil)⟩

/-- **Saves are made one at a time and never go backwards.** Whatever happens to a publisher and its saves,
    whenever it happens and whatever else is done meanwhile, no two saves run at a time, no save gets an empty
    list, the lists are saved in the order in which they were read, and each is the one before, with some pings
    more and some records behind it. What is stored is changed by these saves alone. A tick that skips its save
    or loses its snapshot makes no difference to any of this. -/
theorem saves_in_order (world : World) (calls : List Registry.Call) (c : Crawl) (moves : List Move) :
    InOrder world c.archive (calls ++ callsOf moves) ((start calls c).run world moves) :=
  ((Sound.start world calls c).run moves).inOrder

end Saving

end BitcoinCrawl
