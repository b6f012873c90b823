import BitcoinCrawl.Proofs.Crawl.Handover
import Mathlib.Data.List.Perm.Basic

set_option autoImplicit false

/-! # No wake-up is lost

Between finding the discovery queue empty and waiting for a signal the consumer can be overtaken by somebody
who adds an endpoint, and between an addition and its signal the consumer can begin to wait. The main theorem
(`never_stranded`) says that whatever the order of their steps, the consumer never waits unwoken beside a
queue that holds something unless a signal is on its way, and that whoever gets an endpoint has taken just this
one out of the queue, and whoever goes away none. -/

namespace BitcoinCrawl

/-! ## Signals and their listeners -/

namespace Signal

/-- Who waits, or was woken and has not noticed yet. -/
def listeners (signal : Signal) : List Listener := signal.waiting ++ signal.woken

/-- A signal is only kept if nobody waits. -/
def Spare (signal : Signal) : Prop := signal.kept = true → signal.waiting = []

variable {signal : Signal} {n : Listener}

theorem notify_of_nil (h : signal.waiting = []) : signal.notify = { signal with kept := true } := by
  rw [notify, h]

theorem notify_of_cons {rest : List Listener} (h : signal.waiting = n :: rest) :
    signal.notify = { signal with waiting := rest, woken := signal.woken ++ [n] } := by
  rw [notify, h]

theorem listeners_notify (signal : Signal) : signal.notify.listeners.Perm signal.listeners := by
  cases hwaiting : signal.waiting with
  | nil =>
      rw [notify_of_nil hwaiting]
      exact .refl _
  | cons n rest =>
      rw [notify_of_cons hwaiting, listeners, listeners, hwaiting, ← List.append_assoc]
      exact List.perm_append_singleton n _

theorem listeners_accept (h : n ∈ signal.woken) :
    signal.listeners.Perm (n :: (signal.accept n).listeners) :=
  (List.Perm.append_left _ (List.perm_cons_erase h)).trans List.perm_middle

theorem listeners_leave (h : n ∈ signal.listeners) :
    signal.listeners.Perm (n :: (signal.leave n).listeners) := by
  unfold leave
  by_cases hwoken : n ∈ signal.woken
  · rw [if_pos (show signal.isWoken n = true from List.contains_iff_mem.mpr hwoken)]
    exact (listeners_accept hwoken).trans ((listeners_notify _).symm.cons n)
  · rw [if_neg (by simpa [isWoken] using hwoken)]
    have hwaiting := (List.mem_append.mp h).resolve_right hwoken
    exact (List.perm_cons_erase hwaiting).append_right _

/-- Whoever does not listen may leave unnoticed. -/
theorem leave_of_not_mem (h : n ∉ signal.listeners) : signal.leave n = signal := by
  rw [listeners, List.mem_append, not_or] at h
  rw [leave, if_neg (by simpa [isWoken] using h.2), List.erase_of_not_mem h.1]

theorem listen_of_kept (n : Listener) (h : signal.kept = true) :
    signal.listen n = ({ signal with kept := false }, false) := by
  rw [listen, if_pos h]

theorem listen_of_spent (n : Listener) (h : signal.kept = false) :
    signal.listen n = ({ signal with waiting := signal.waiting ++ [n] }, true) := by
  rw [listen, if_neg (by simp [h])]

theorem Spare.notify (h : signal.Spare) : signal.notify.Spare := by
  cases hwaiting : signal.waiting with
  | nil =>
      rw [Signal.notify_of_nil hwaiting]
      exact fun _ => hwaiting
  | cons n rest =>
      rw [Signal.notify_of_cons hwaiting]
      exact fun hkept => absurd (h hkept) (by simp [hwaiting])

theorem Spare.accept (h : signal.Spare) (n : Listener) : (signal.accept n).Spare := h

theorem Spare.leave (h : signal.Spare) (n : Listener) : (signal.leave n).Spare := by
  unfold Signal.leave
  split
  · exact (h.accept n).notify
  · intro hkept
    show signal.waiting.erase n = []
    rw [h hkept]
    rfl

/-- If somebody leaves, whoever is the next to be woken either is or stays so. -/
theorem waiting_leave {m : Listener} (hne : m ≠ n) (hnodup : signal.listeners.Nodup)
    (hfirst : m ∈ signal.waiting → signal.waiting.head? = some m) (hmem : m ∈ (signal.leave n).waiting) :
    m ∈ signal.waiting ∧ (signal.leave n).waiting.head? = signal.waiting.head? ∧
      (signal.leave n).kept = signal.kept := by
  unfold leave at hmem ⊢
  split
  case isTrue hwoken =>
    rw [if_pos hwoken] at hmem
    cases hwaiting : signal.waiting with
    | nil =>
        rw [notify_of_nil (show (signal.accept n).waiting = [] from hwaiting)] at hmem
        simp [accept, hwaiting] at hmem
    | cons a rest =>
        rw [notify_of_cons (show (signal.accept n).waiting = a :: rest from hwaiting)] at hmem
        have hhead := hfirst (by rw [hwaiting]; exact List.mem_cons_of_mem _ hmem)
        rw [hwaiting] at hhead
        rw [listeners, hwaiting, List.cons_append] at hnodup
        obtain rfl : a = m := Option.some.inj hhead
        exact absurd (List.mem_append_left _ hmem) (List.nodup_cons.mp hnodup).1
  case isFalse hwoken =>
    rw [if_neg hwoken] at hmem
    have hold := List.mem_of_mem_erase hmem
    refine ⟨hold, ?_, rfl⟩
    have hhead := hfirst hold
    cases hwaiting : signal.waiting with
    | nil => simp [hwaiting] at hold
    | cons a rest =>
        rw [hwaiting] at hhead
        obtain rfl : a = m := Option.some.inj hhead
        show ((a :: rest).erase n).head? = _
        rw [List.erase_cons_tail (by simpa using hne)]
        rfl

end Signal

namespace Handover

/-! ## What one step of a seeker does -/

/-- A step of a call for an endpoint, by what it does. -/
inductive Seek.Stepped (scene : Scene) (seek : Seek) : Scene → Option Seek → Prop
  | wait : Stepped scene seek scene (some seek)
  | lock (h : seek.phase = .knocking) : Stepped scene seek (scene.setLocked true) (some (seek.enter .locking))
  /-- The oldest entry is taken. -/
  | find (e : Endpoint) (rest : List Endpoint) (h : seek.phase = .locking)
      (queue : scene.shared.registry.discoveryQueue = e :: rest) :
      Stepped scene seek
        ((scene.setRegistry scene.shared.registry.takeNext.registry).note [.removed seek.number [e]])
        (some (seek.enter (.found e)))
  | miss (h : seek.phase = .locking) (queue : scene.shared.registry.discoveryQueue = []) :
      Stepped scene seek scene (some (seek.enter .bare))
  | finish (e : Endpoint) (h : seek.phase = .found e) :
      Stepped scene seek ((scene.setLocked false).note [.returned seek.number e]) none
  | unlock (h : seek.phase = .bare) : Stepped scene seek (scene.setLocked false) (some (seek.enter .arming))
  | spend (h : seek.phase = .arming) (kept : scene.shared.arrivals.kept = true) :
      Stepped scene seek (scene.setArrivals { scene.shared.arrivals with kept := false })
        (some (seek.enter .knocking))
  | listen (h : seek.phase = .arming) (spent : scene.shared.arrivals.kept = false) :
      Stepped scene seek (scene.setArrivals
        { scene.shared.arrivals with waiting := scene.shared.arrivals.waiting ++ [seek.number] })
        (some (seek.enter .listening))
  | wake (h : seek.phase = .listening) (woken : seek.number ∈ scene.shared.arrivals.woken) :
      Stepped scene seek (scene.setArrivals (scene.shared.arrivals.accept seek.number))
        (some (seek.enter .knocking))

theorem Seek.stepped {scene : Scene} (hc : scene.shared.registry.Consistent) (seek : Seek) :
    seek.Stepped scene (seek.step scene).1 (seek.step scene).2 := by
  unfold step
  split
  case h_1 h =>
    split
    · exact .wait
    · exact .lock h
  case h_2 h =>
    cases hqueue : scene.shared.registry.discoveryQueue with
    | nil =>
        have htake : scene.shared.takeNext = (scene.shared, none) := by
          simp [Shared.takeNext, Registry.takeNext_of_nil hqueue, Shared.reportAll]
        rw [htake, Registry.takeNext_of_nil hqueue]
        show Stepped scene seek (scene.note []) _
        rw [show scene.note [] = scene by simp [Scene.note]]
        exact .miss h hqueue
    | cons e rest =>
        obtain ⟨hfound, -, -⟩ := hc.takeNext_listed hqueue
        have htake : scene.shared.takeNext
            = ({ scene.shared with registry := scene.shared.registry.takeNext.registry }, some e) := by
          simp [Shared.takeNext, hc.stale_takeNext, Shared.reportAll, hfound]
        rw [htake, hfound, hc.stale_takeNext]
        exact .find e rest h hqueue
  case h_3 e h => exact .finish e h
  case h_4 h => exact .unlock h
  case h_5 h =>
    cases hkept : scene.shared.arrivals.kept with
    | true =>
        rw [Signal.listen_of_kept _ hkept]
        exact .spend h hkept
    | false =>
        rw [Signal.listen_of_spent _ hkept]
        exact .listen h hkept
  case h_6 h =>
    split
    case isTrue woken => exact .wake h (List.contains_iff_mem.mp woken)
    case isFalse => exact .wait

/-! ## Who listens -/

/-- Seekers have numbers of their own, and the signal knows just those who wait for it. -/
structure Listed (signal : Signal) (given : Listener) (seeks : List Seek) : Prop where
  below : ∀ seek ∈ seeks, seek.number < given
  distinct : (seeks.map Seek.number).Nodup
  listeners : signal.listeners.Perm ((seeks.filter (·.phase = .listening)).map Seek.number)
  spare : signal.Spare

variable {signal : Signal} {given : Listener} {seek : Seek} {seeks seeks' rest : List Seek}

namespace Listed

theorem perm (h : Listed signal given seeks) (hperm : seeks.Perm seeks') : Listed signal given seeks' where
  below := fun seek hseek => h.below seek (hperm.mem_iff.mpr hseek)
  distinct := (hperm.map _).nodup_iff.mp h.distinct
  listeners := h.listeners.trans ((hperm.filter _).map _)
  spare := h.spare

theorem mem_iff (h : Listed signal given (seek :: rest)) :
    seek.number ∈ signal.listeners ↔ seek.phase = .listening := by
  have hfree : seek.number ∉ (rest.filter (·.phase = .listening)).map Seek.number := fun hmem =>
    (List.nodup_cons.mp h.distinct).1 ((List.filter_sublist.map _).mem hmem)
  rw [h.listeners.mem_iff, List.filter_cons]
  by_cases hphase : seek.phase = .listening
  · simp [hphase]
  · simpa [hphase] using hfree

theorem nodup (h : Listed signal given seeks) : signal.listeners.Nodup :=
  h.listeners.nodup_iff.mpr (h.distinct.sublist (List.filter_sublist.map _))

/-- Nobody waits if the only one there is does not. -/
theorem waiting_eq_nil (h : Listed signal given [seek]) (hphase : seek.phase ≠ .listening) :
    signal.waiting = [] := by
  have hnone : signal.listeners.Perm [] := by simpa [hphase] using h.listeners
  exact (List.append_eq_nil_iff.mp hnone.eq_nil).1

/-- Whoever does not listen may go on. -/
theorem enter (h : Listed signal given (seek :: rest)) {phase : SeekPhase} (hphase : seek.phase ≠ .listening)
    (hphase' : phase ≠ .listening) : Listed signal given (seek.enter phase :: rest) where
  below := List.forall_mem_cons.mpr (List.forall_mem_cons.mp h.below)
  distinct := h.distinct
  listeners := by simpa [Seek.enter, hphase, hphase'] using h.listeners
  spare := h.spare

/-- A step, or the way out, of somebody who does not listen any more. -/
theorem off {signal' : Signal} (h : Listed signal given (seek :: rest)) (hphase : seek.phase = .listening)
    (hoff : signal.listeners.Perm (seek.number :: signal'.listeners)) (hspare : signal'.Spare) :
    Listed signal' given rest where
  below := (List.forall_mem_cons.mp h.below).2
  distinct := (List.nodup_cons.mp h.distinct).2
  listeners := by
    have hlisteners := hoff.symm.trans h.listeners
    simpa [hphase] using hlisteners
  spare := hspare

theorem cons (h : Listed signal given rest) {number : Listener} (hbelow : number < given)
    (hnew : number ∉ rest.map Seek.number) {phase : SeekPhase} (hphase : phase ≠ .listening) :
    Listed signal given ({ number, phase } :: rest) where
  below := List.forall_mem_cons.mpr ⟨hbelow, h.below⟩
  distinct := List.nodup_cons.mpr ⟨hnew, h.distinct⟩
  listeners := by simpa [hphase] using h.listeners
  spare := h.spare

/-- Somebody new comes. -/
theorem come (h : Listed signal given seeks) : Listed signal (given + 1) ({ number := given } :: seeks) := by
  have hbelow : ∀ seek ∈ seeks, seek.number < given + 1 := fun seek hseek =>
    Nat.lt_succ_of_lt (h.below seek hseek)
  refine Listed.cons ⟨hbelow, h.distinct, h.listeners, h.spare⟩ (Nat.lt_succ_self _) ?_ (by simp)
  intro hmem
  obtain ⟨seek, hseek, hnumber⟩ := List.mem_map.mp hmem
  exact absurd (h.below seek hseek) (by simp [hnumber])

theorem notify (h : Listed signal given seeks) : Listed signal.notify given seeks :=
  ⟨h.below, h.distinct, signal.listeners_notify.trans h.listeners, h.spare.notify⟩

/-- Whoever does not listen may go away. -/
theorem quit (h : Listed signal given (seek :: rest)) (hphase : seek.phase ≠ .listening) :
    Listed signal given rest where
  below := (List.forall_mem_cons.mp h.below).2
  distinct := (List.nodup_cons.mp h.distinct).2
  listeners := by simpa [hphase] using h.listeners
  spare := h.spare

theorem leave (h : Listed signal given (seek :: rest)) : Listed (signal.leave seek.number) given rest := by
  by_cases hphase : seek.phase = .listening
  · exact h.off hphase (Signal.listeners_leave (h.mem_iff.mpr hphase)) (h.spare.leave _)
  · rw [Signal.leave_of_not_mem (h.mem_iff.not.mpr hphase)]
    exact h.quit hphase

theorem step {scene scene' : Scene} {next : Option Seek}
    (h : Listed scene.shared.arrivals given (seek :: rest)) (hstep : seek.Stepped scene scene' next) :
    Listed scene'.shared.arrivals given (next.toList ++ rest) := by
  cases hstep with
  | wait => exact h
  | lock hphase => exact h.enter (by simp [hphase]) (by simp)
  | find e rest hphase queue => exact h.enter (by simp [hphase]) (by simp)
  | miss hphase queue => exact h.enter (by simp [hphase]) (by simp)
  | unlock hphase => exact h.enter (by simp [hphase]) (by simp)
  | finish e hphase => exact h.quit (by simp [hphase])
  | spend hphase kept =>
      have hspent : Listed _ _ (seek.enter .knocking :: rest) := h.enter (by simp [hphase]) (by simp)
      exact ⟨hspent.below, hspent.distinct, hspent.listeners, nofun⟩
  | listen hphase spent =>
      have hquit := h.quit (by simp [hphase])
      refine ⟨List.forall_mem_cons.mpr (List.forall_mem_cons.mp h.below), h.distinct, ?_,
        fun hkept => absurd hkept (by simp [Scene.setArrivals, spent])⟩
      simp only [Scene.setArrivals, Signal.listeners, List.append_assoc, List.singleton_append]
      exact List.perm_middle.trans (hquit.listeners.cons seek.number)
  | wake hphase woken =>
      have hoff := h.off hphase (Signal.listeners_accept woken) (h.spare.accept _)
      exact hoff.cons (h.below seek List.mem_cons_self) (List.nodup_cons.mp h.distinct).1 (by simp)

end Listed

/-! ## Who has taken what -/

namespace Deed

/-- Whose deed it is. -/
def seeker : Deed → Listener
  | removed n _ | returned n _ | dropped n => n

/-- The entries that have left the discovery queue. -/
def entries : Deed → List Endpoint
  | removed _ es => es
  | _ => []

end Deed

/-- The deeds of one seeker. -/
def deedsOf (n : Listener) (past : List Deed) : List Deed := past.filter (·.seeker = n)

/-- What a seeker has done so far. -/
def Seek.deeds (seek : Seek) : List Deed :=
  match seek.phase with
  | .found e => [.removed seek.number [e]]
  | _ => []

/-- All that a seeker can have done: nothing, or taken one endpoint, and then returned it, or gone away. -/
inductive Account (n : Listener) : List Deed → Prop
  | nothing : Account n []
  | taken (e : Endpoint) : Account n [.removed n [e]]
  | served (e : Endpoint) : Account n [.removed n [e], .returned n e]
  | left : Account n [.dropped n]

theorem Seek.account (seek : Seek) : Account seek.number seek.deeds := by
  unfold deeds
  split
  case h_1 e h => exact .taken e
  case h_2 => exact .nothing

/-- The deeds of all seekers, past and present. -/
structure Accounted (past : List Deed) (given : Listener) (seeks : List Seek) : Prop where
  present : ∀ seek ∈ seeks, deedsOf seek.number past = seek.deeds
  account : ∀ n, Account n (deedsOf n past)
  unborn : ∀ n, given ≤ n → deedsOf n past = []

namespace Accounted

variable {past : List Deed}

theorem perm (h : Accounted past given seeks) (hperm : seeks.Perm seeks') : Accounted past given seeks' where
  present := fun seek hseek => h.present seek (hperm.mem_iff.mpr hseek)
  account := h.account
  unborn := h.unborn

theorem come (h : Accounted past given seeks) : Accounted past (given + 1) ({ number := given } :: seeks) where
  present := List.forall_mem_cons.mpr ⟨h.unborn given (Nat.le_refl _), h.present⟩
  account := h.account
  unborn := fun n hn => h.unborn n (Nat.le_of_succ_le hn)

theorem deedsOf_append (past : List Deed) {deeds : List Deed} (hdeeds : ∀ deed ∈ deeds, deed.seeker = seek.number) :
    deedsOf seek.number (past ++ deeds) = deedsOf seek.number past ++ deeds ∧
      ∀ n, n ≠ seek.number → deedsOf n (past ++ deeds) = deedsOf n past := by
  constructor
  · have hall : deeds.filter (·.seeker = seek.number) = deeds :=
      List.filter_eq_self.mpr (by simpa using hdeeds)
    rw [deedsOf, List.filter_append, hall]
    rfl
  · intro n hn
    have hnone : deeds.filter (·.seeker = n) = [] := by
      refine List.filter_eq_nil_iff.mpr fun deed hdeed => ?_
      simpa [hdeeds deed hdeed] using Ne.symm hn
    rw [deedsOf, List.filter_append, hnone, List.append_nil]
    rfl

/-- What one seeker does is nothing to the others, nor to those still to come. -/
theorem others {deeds : List Deed} (h : Accounted past given (seek :: rest))
    (hlisted : Listed signal given (seek :: rest)) (hdeeds : ∀ deed ∈ deeds, deed.seeker = seek.number) :
    (∀ other ∈ rest, deedsOf other.number (past ++ deeds) = other.deeds) ∧
      ∀ n, given ≤ n → deedsOf n (past ++ deeds) = [] := by
  obtain ⟨-, hothers⟩ := deedsOf_append past hdeeds
  have hbelow := hlisted.below seek List.mem_cons_self
  refine ⟨fun other hother => ?_, fun n hn => ?_⟩
  · have hne : other.number ≠ seek.number := fun heq =>
      (List.nodup_cons.mp hlisted.distinct).1 (heq ▸ List.mem_map_of_mem hother)
    rw [hothers _ hne]
    exact h.present other (List.mem_cons_of_mem _ hother)
  · rw [hothers n (Nat.ne_of_gt (Nat.lt_of_lt_of_le hbelow hn))]
    exact h.unborn n hn

/-- Somebody does something and stays. -/
theorem stay {deeds : List Deed} {phase : SeekPhase} (h : Accounted past given (seek :: rest))
    (hlisted : Listed signal given (seek :: rest)) (hdeeds : ∀ deed ∈ deeds, deed.seeker = seek.number)
    (hphase : (seek.enter phase).deeds = seek.deeds ++ deeds) :
    Accounted (past ++ deeds) given (seek.enter phase :: rest) := by
  obtain ⟨hpresent, hunborn⟩ := h.others hlisted hdeeds
  obtain ⟨hown, hothers⟩ := deedsOf_append past hdeeds
  have hnow : deedsOf seek.number (past ++ deeds) = (seek.enter phase).deeds := by
    rw [hown, hphase, h.present seek List.mem_cons_self]
  refine ⟨List.forall_mem_cons.mpr ⟨hnow, hpresent⟩, fun n => ?_, hunborn⟩
  by_cases heq : n = seek.number
  · rw [heq, hnow]
    exact (seek.enter phase).account
  · rw [hothers n heq]
    exact h.account n

/-- Somebody does something and is gone. -/
theorem part {deeds : List Deed} (h : Accounted past given (seek :: rest))
    (hlisted : Listed signal given (seek :: rest)) (hdeeds : ∀ deed ∈ deeds, deed.seeker = seek.number)
    (hparts : Account seek.number (seek.deeds ++ deeds)) : Accounted (past ++ deeds) given rest := by
  obtain ⟨hpresent, hunborn⟩ := h.others hlisted hdeeds
  obtain ⟨hown, hothers⟩ := deedsOf_append past hdeeds
  refine ⟨hpresent, fun n => ?_, hunborn⟩
  by_cases heq : n = seek.number
  · rw [heq, hown, h.present seek List.mem_cons_self]
    exact hparts
  · rw [hothers n heq]
    exact h.account n

theorem step {scene scene' : Scene} {next : Option Seek} (h : Accounted scene.past given (seek :: rest))
    (hlisted : Listed signal given (seek :: rest)) (hstep : seek.Stepped scene scene' next) :
    Accounted scene'.past given (next.toList ++ rest) := by
  -- Most steps are no deeds.
  have hidle : ∀ phase, (∀ e, seek.phase ≠ .found e) → (∀ e, phase ≠ .found e) →
      Accounted scene.past given (seek.enter phase :: rest) := by
    intro phase hphase hphase'
    have hdeeds : ∀ seek : Seek, (∀ e, seek.phase ≠ .found e) → seek.deeds = [] := by
      intro seek hne
      unfold Seek.deeds
      split
      case h_1 e h => exact absurd h (hne e)
      case h_2 => rfl
    have hsame : (seek.enter phase).deeds = seek.deeds ++ [] := by
      rw [hdeeds _ hphase', hdeeds _ hphase, List.append_nil]
    have hstay := h.stay hlisted (by simp) hsame
    rwa [List.append_nil] at hstay
  cases hstep with
  | wait => exact h
  | lock hphase => exact hidle _ (by simp [hphase]) (by simp)
  | miss hphase => exact hidle _ (by simp [hphase]) (by simp)
  | unlock hphase => exact hidle _ (by simp [hphase]) (by simp)
  | spend hphase => exact hidle _ (by simp [hphase]) (by simp)
  | listen hphase => exact hidle _ (by simp [hphase]) (by simp)
  | wake hphase => exact hidle _ (by simp [hphase]) (by simp)
  | find e rest hphase =>
      exact h.stay hlisted (by simp [Deed.seeker]) (by simp [Seek.deeds, Seek.enter, hphase])
  | finish e hphase =>
      refine h.part hlisted (by simp [Deed.seeker]) ?_
      rw [Seek.deeds, hphase]
      exact .served e

theorem leave {scene : Scene} (h : Accounted scene.past given (seek :: rest))
    (hlisted : Listed signal given (seek :: rest)) (hphase : ∀ e, seek.phase ≠ .found e) :
    Accounted (seek.leave scene).past given rest := by
  refine h.part hlisted (by simp [Deed.seeker]) ?_
  unfold Seek.deeds
  split
  case h_1 e he => exact absurd he (hphase e)
  case h_2 => exact .left

end Accounted

/-! ## What has left the queue -/

/-- The entries that have left the discovery queue, in their order. -/
def departed (r : Registry) : List Endpoint := r.known.toList.take r.taken

theorem departed_addOne {r : Registry} (hc : r.Consistent) (k : Nat) (e : Endpoint) :
    departed (Registry.addOne (r, k) e).1 = departed r := by
  obtain ⟨fresh, -, hgrown⟩ := hc.addOne_grown k e
  rw [departed, hgrown.known, hgrown.taken]
  exact List.take_append_of_le_length (by simpa using hc.taken_le)

theorem departed_perform {r : Registry} (visit : Visit) : departed (r.perform visit) = departed r := by
  have hlisted := Registry.perform_listed r visit visit.2
  rw [departed, hlisted.known, hlisted.taken]
  rfl

theorem departed_takeNext {r : Registry} {e : Endpoint} {rest : List Endpoint} (hc : r.Consistent)
    (hqueue : r.discoveryQueue = e :: rest) : departed r.takeNext.registry = departed r ++ [e] := by
  obtain ⟨n, -, -, htake⟩ := hc.takeNext_of_cons hqueue
  have hfront : r.known.toList[r.taken]? = some e := by
    rw [← List.head?_drop]
    exact congrArg List.head? hqueue
  rw [htake]
  show r.known.toList.take (r.taken + 1) = _
  rw [List.take_add_one, hfront]
  rfl

namespace Seek.Stepped

variable {scene scene' : Scene} {next : Option Seek}

theorem consistent (hstep : seek.Stepped scene scene' next) (hc : scene.shared.registry.Consistent) :
    scene'.shared.registry.Consistent := by
  cases hstep with
  | find => exact hc.takeNext
  | _ => exact hc

theorem departed_eq (hstep : seek.Stepped scene scene' next) (hc : scene.shared.registry.Consistent)
    {before : List Endpoint} (h : departed scene.shared.registry = before ++ scene.past.flatMap Deed.entries) :
    departed scene'.shared.registry = before ++ scene'.past.flatMap Deed.entries := by
  cases hstep with
  | find e rest hphase queue =>
      simp only [Scene.note, Scene.setRegistry, departed_takeNext hc queue, h, List.flatMap_append,
        List.append_assoc]
      rfl
  | finish e hphase => simpa [Scene.note, Scene.setLocked, Deed.entries] using h
  | _ => exact h

theorem queue_ne_nil (hstep : seek.Stepped scene scene' next)
    (h : scene'.shared.registry.discoveryQueue ≠ []) : scene.shared.registry.discoveryQueue ≠ [] := by
  cases hstep with
  | find e rest hphase queue => simp [queue]
  | _ => exact h

/-- To those who wait it makes no difference. -/
theorem waiting (hstep : seek.Stepped scene scene' next) (hspare : scene.shared.arrivals.Spare) {n : Listener}
    (hn : n ≠ seek.number) (hmem : n ∈ scene'.shared.arrivals.waiting) :
    n ∈ scene.shared.arrivals.waiting ∧
      scene'.shared.arrivals.waiting.head? = scene.shared.arrivals.waiting.head? ∧
      scene'.shared.arrivals.kept = scene.shared.arrivals.kept := by
  cases hstep with
  | spend hphase kept =>
      have hnone : n ∈ ([] : List Listener) := hspare kept ▸ hmem
      cases hnone
  | listen hphase spent =>
      have hold : n ∈ scene.shared.arrivals.waiting := by
        simpa [Scene.setArrivals, hn] using hmem
      refine ⟨hold, ?_, rfl⟩
      exact List.head?_append_of_ne_nil _ (List.ne_nil_of_mem hold)
  | _ => exact ⟨hmem, rfl, rfl⟩

end Seek.Stepped

/-! ## The consumer and its signal -/

/-- Whether a signal is due. -/
def Due (callers : List Caller) : Prop := ∃ caller ∈ callers, caller.isDue = true

theorem due_set {callers : List Caller} {i : Nat} {old new : Caller} (hi : callers[i]? = some old)
    (hnew : new.isDue = true) : Due (callers.set i new) :=
  ⟨new, List.mem_set (List.getElem?_eq_some_iff.mp hi).1 new, hnew⟩

/-- A caller that takes a step is still due if it was. -/
theorem Due.set {callers : List Caller} {i : Nat} {old new : Caller} (hi : callers[i]? = some old)
    (hkeeps : old.isDue = true → new.isDue = true) (hdue : Due callers) : Due (callers.set i new) := by
  obtain ⟨caller, hmem, hcaller⟩ := hdue
  obtain ⟨j, hj⟩ := List.mem_iff_getElem?.mp hmem
  by_cases hij : i = j
  · subst hij
    obtain rfl := Option.some.inj (hi.symm.trans hj)
    exact due_set hi (hkeeps hcaller)
  · refine ⟨caller, List.mem_iff_getElem?.mpr ⟨j, ?_⟩, hcaller⟩
    rw [List.getElem?_set_ne hij]
    exact hj

/-- Whether somebody has looked at the queue in vain and will not look again without a signal. -/
def Seek.Relies (signal : Signal) (seek : Seek) : Prop :=
  seek.phase = .bare ∨ seek.phase = .arming ∨ seek.number ∈ signal.waiting

/-- The consumer will not miss anything. -/
structure Awake (h : Handover) : Prop where
  /-- Strays do not come while the consumer is polled. -/
  alone : h.polling = true → h.strays = []
  still : ∀ seek, h.consumer = some seek → h.polling = false →
    seek.phase = .knocking ∨ seek.phase = .listening
  /-- The consumer has waited longer than any stray. -/
  first : ∀ seek, h.consumer = some seek → seek.number ∈ h.scene.shared.arrivals.waiting →
    h.scene.shared.arrivals.waiting.head? = some seek.number
  alert : ∀ seek, h.consumer = some seek → seek.Relies h.scene.shared.arrivals →
    h.scene.shared.registry.discoveryQueue ≠ [] → h.scene.shared.arrivals.kept = true ∨ Due h.callers

theorem seeks_of_some {h : Handover} (hseek : h.consumer = some seek) : h.seeks = seek :: h.strays := by
  rw [seeks, hseek]
  rfl

namespace Awake

variable {h : Handover}

/-- A caller does something but signal. -/
theorem call (ha : h.Awake) {scene : Scene} {callers : List Caller}
    (harrivals : scene.shared.arrivals = h.scene.shared.arrivals)
    (hqueue : scene.shared.registry.discoveryQueue ≠ [] →
      h.scene.shared.registry.discoveryQueue ≠ [] ∨ Due callers)
    (hdue : Due h.callers → Due callers) : Awake { h with scene, callers } where
  alone := ha.alone
  still := ha.still
  first := by
    rw [harrivals]
    exact ha.first
  alert := by
    intro seek hseek hrelies hsome
    rw [harrivals] at hrelies ⊢
    rcases hqueue hsome with hold | hnew
    · exact (ha.alert seek hseek hrelies hold).imp_right hdue
    · exact .inr hnew

/-- Whoever is in the middle of being polled is alone and does not wait. -/
theorem waiting_eq_nil (ha : h.Awake) (hlisted : Listed h.scene.shared.arrivals h.given h.seeks)
    (hseek : h.consumer = some seek) (hknocking : seek.phase ≠ .knocking) (hlistening : seek.phase ≠ .listening) :
    h.scene.shared.arrivals.waiting = [] := by
  have hstrays : h.strays = [] := by
    cases hpolling : h.polling with
    | true => exact ha.alone hpolling
    | false => exact ((ha.still seek hseek hpolling).elim hknocking hlistening).elim
  have hseeks : h.seeks = [seek] := by rw [seeks_of_some hseek, hstrays]
  exact (hseeks ▸ hlisted).waiting_eq_nil hlistening

/-- A signal reaches the consumer, if it waits for one. -/
theorem notify (ha : h.Awake) (hlisted : Listed h.scene.shared.arrivals h.given h.seeks)
    (callers : List Caller) :
    Awake { h with scene := { h.scene with shared := h.scene.shared.signal }, callers } := by
  have hcalled : ∀ seek, h.consumer = some seek → seek.number ∉ h.scene.shared.arrivals.notify.waiting := by
    intro seek hseek hmem
    cases hwaiting : h.scene.shared.arrivals.waiting with
    | nil =>
        rw [Signal.notify_of_nil hwaiting, hwaiting] at hmem
        cases hmem
    | cons n rest =>
        rw [Signal.notify_of_cons hwaiting] at hmem
        have hfirst := ha.first seek hseek (by rw [hwaiting]; exact List.mem_cons_of_mem _ hmem)
        have hnodup := hlisted.nodup
        rw [hwaiting] at hfirst
        rw [Signal.listeners, hwaiting, List.cons_append] at hnodup
        obtain rfl : n = seek.number := Option.some.inj hfirst
        exact (List.nodup_cons.mp hnodup).1 (List.mem_append_left _ hmem)
  refine ⟨ha.alone, ha.still, fun seek hseek hmem => absurd hmem (hcalled seek hseek), ?_⟩
  intro seek hseek hrelies hsome
  have hkept : h.scene.shared.arrivals.waiting = [] → h.scene.shared.arrivals.notify.kept = true :=
    fun hwaiting => by rw [Signal.notify_of_nil hwaiting]
  rcases hrelies with hphase | hphase | hmem
  · exact .inl (hkept (ha.waiting_eq_nil hlisted hseek (by simp [hphase]) (by simp [hphase])))
  · exact .inl (hkept (ha.waiting_eq_nil hlisted hseek (by simp [hphase]) (by simp [hphase])))
  · exact absurd hmem (hcalled seek hseek)

/-- The consumer goes on alone. -/
theorem step (ha : h.Awake) {scene : Scene} {next : Option Seek} (hseek : h.consumer = some seek)
    (hpolling : h.polling = true) (hstep : seek.Stepped h.scene scene next)
    (hlisted : Listed scene.shared.arrivals h.given (next.toList ++ h.strays)) :
    Awake { h with scene, consumer := next, polling := next.any (·.phase ≠ .listening) } := by
  have hstrays := ha.alone hpolling
  have hwaits : ∀ seek', next = some seek' → seek'.number ∈ scene.shared.arrivals.waiting →
      seek'.phase = .listening ∧ scene.shared.arrivals.waiting.head? = some seek'.number := by
    intro seek' hnext hmem
    rw [hstrays, hnext] at hlisted
    have hphase := hlisted.mem_iff.mp (List.mem_append_left _ hmem)
    refine ⟨hphase, ?_⟩
    cases hwaiting : scene.shared.arrivals.waiting with
    | nil => simp [hwaiting] at hmem
    | cons n rest =>
        have hn : n ∈ scene.shared.arrivals.listeners := by simp [Signal.listeners, hwaiting]
        simpa [hphase] using hlisted.listeners.mem_iff.mp hn
  refine ⟨fun _ => hstrays, ?_, fun seek' hnext hmem => (hwaits seek' hnext hmem).2, ?_⟩
  · rintro seek' rfl hstill
    exact .inr (by simpa using hstill)
  · rintro seek' rfl hrelies hsome
    -- Unless it has begun to wait, or is about to, the consumer will look at the queue again.
    have hlooks : seek'.phase ≠ .bare → seek'.phase ≠ .arming → seek'.phase ≠ .listening → False := by
      rintro hbare harming hlistening
      rcases hrelies with hphase | hphase | hmem
      · exact hbare hphase
      · exact harming hphase
      · exact hlistening (hwaits seek' rfl hmem).1
    cases hstep with
    | wait => exact ha.alert seek hseek hrelies hsome
    | lock => exact (hlooks nofun nofun nofun).elim
    | find => exact (hlooks nofun nofun nofun).elim
    | miss hphase queue => exact absurd queue hsome
    | unlock hphase => exact ha.alert seek hseek (.inl hphase) hsome
    | spend => exact (hlooks nofun nofun nofun).elim
    | listen hphase spent =>
        rcases ha.alert seek hseek (.inr (.inl hphase)) hsome with hkept | hdue
        · rw [spent] at hkept
          cases hkept
        · exact .inr hdue
    | wake => exact (hlooks nofun nofun nofun).elim

/-- Somebody else does something while the consumer is not polled. -/
theorem aside (ha : h.Awake) {scene : Scene} {strays : List Seek} {given : Listener} (hpolling : h.polling = false)
    (hwaiting : ∀ seek, h.consumer = some seek → seek.number ∈ scene.shared.arrivals.waiting →
      seek.number ∈ h.scene.shared.arrivals.waiting ∧
        scene.shared.arrivals.waiting.head? = h.scene.shared.arrivals.waiting.head? ∧
        scene.shared.arrivals.kept = h.scene.shared.arrivals.kept)
    (hqueue : scene.shared.registry.discoveryQueue ≠ [] → h.scene.shared.registry.discoveryQueue ≠ []) :
    Awake { h with scene, strays, given } where
  alone := fun hpolled => absurd hpolled (by simp [hpolling])
  still := ha.still
  first := by
    intro seek hseek hmem
    obtain ⟨hold, hhead, -⟩ := hwaiting seek hseek hmem
    exact hhead.trans (ha.first seek hseek hold)
  alert := by
    intro seek hseek hrelies hsome
    have hmem : seek.number ∈ scene.shared.arrivals.waiting := by
      rcases hrelies with hphase | hphase | hmem
      · exact absurd (ha.still seek hseek hpolling) (by simp [hphase])
      · exact absurd (ha.still seek hseek hpolling) (by simp [hphase])
      · exact hmem
    obtain ⟨hold, -, hkept⟩ := hwaiting seek hseek hmem
    show scene.shared.arrivals.kept = true ∨ _
    rw [hkept]
    exact ha.alert seek hseek (.inr (.inr hold)) (hqueue hsome)

end Awake

/-! ## All invariants -/

/-- What is true of every handover that begins with a registry. -/
structure Sound (r : Registry) (h : Handover) : Prop where
  consistent : h.scene.shared.registry.Consistent
  listed : Listed h.scene.shared.arrivals h.given h.seeks
  accounted : Accounted h.scene.past h.given h.seeks
  departed_eq : departed h.scene.shared.registry = departed r ++ h.scene.past.flatMap Deed.entries
  awake : h.Awake

theorem sound_start {r : Registry} (hc : r.Consistent) (kept : Bool) (s : Shared) : Sound r (start r kept s) where
  consistent := hc
  listed := ⟨nofun, .nil, .nil, fun _ => rfl⟩
  accounted := ⟨nofun, fun _ => .nothing, fun _ _ => rfl⟩
  departed_eq := (List.append_nil _).symm
  awake := ⟨fun _ => rfl, nofun, nofun, nofun⟩

theorem replace_perm (i : Nat) (next : Option Seek) (seeks : List Seek) :
    (replace i next seeks).Perm (next.toList ++ replace i none seeks) :=
  List.perm_append_comm_assoc _ _ _

theorem perm_replace {i : Nat} (h : seeks[i]? = some seek) : seeks.Perm (seek :: replace i none seeks) := by
  have hsplit : replace i (some seek) seeks = seeks := by
    obtain ⟨hlt, rfl⟩ := List.getElem?_eq_some_iff.mp h
    simp [replace]
  have hperm := replace_perm i (some seek) seeks
  rwa [hsplit] at hperm

namespace Sound

variable {r : Registry} {h : Handover}

/-- A caller takes a step, and does not signal. -/
theorem call (hs : Sound r h) {scene : Scene} {callers : List Caller}
    (hconsistent : scene.shared.registry.Consistent)
    (harrivals : scene.shared.arrivals = h.scene.shared.arrivals) (hpast : scene.past = h.scene.past)
    (hdeparted : departed scene.shared.registry = departed h.scene.shared.registry)
    (hqueue : scene.shared.registry.discoveryQueue ≠ [] →
      h.scene.shared.registry.discoveryQueue ≠ [] ∨ Due callers)
    (hdue : Due h.callers → Due callers) : Sound r { h with scene, callers } where
  consistent := hconsistent
  listed := harrivals.symm ▸ hs.listed
  accounted := hpast.symm ▸ hs.accounted
  departed_eq := (hdeparted.trans hs.departed_eq).trans (by rw [hpast])
  awake := hs.awake.call harrivals hqueue hdue

theorem caller (hs : Sound r h) {i : Nat} {old : Caller} (hi : h.callers[i]? = some old) :
    Sound r { h with scene := (old.step h.scene).1, callers := h.callers.set i (old.step h.scene).2 } := by
  have hc := hs.consistent
  -- Most steps only lock or unlock the registry.
  have hlocking : ∀ locked new, (old.isDue = true → new.isDue = true) →
      Sound r { h with scene := h.scene.setLocked locked, callers := h.callers.set i new } :=
    fun locked new hkeeps => hs.call hc rfl rfl rfl .inl (.set hi hkeeps)
  cases old with
  | adding es =>
      simp only [Caller.step]
      split
      · exact hlocking h.scene.locked _ id
      · exact hlocking true _ nofun
  | calling visit =>
      simp only [Caller.step]
      split
      · exact hlocking h.scene.locked _ id
      · exact hlocking true _ nofun
  | done => exact hlocking h.scene.locked _ id
  | pushing left added =>
      cases left with
      | nil =>
          refine hlocking false _ fun hdue => ?_
          have hadded : 0 < added := of_decide_eq_true hdue
          simp [Caller.step, hadded, Caller.isDue]
      | cons e rest =>
          have hcons := hc.addOne added e
          cases hnode : h.scene.shared.registry.node? e with
          | some n =>
              have hknown : (h.scene.shared.registry.node? e).isSome = true := by rw [hnode]; rfl
              simp only [Caller.step, Registry.addOne_of_known added hknown]
              exact hlocking h.scene.locked _ id
          | none =>
              have hcount : (Registry.addOne (h.scene.shared.registry, added) e).2 = added + 1 := by
                rw [Registry.addOne_of_new added hnode]
              have hnew : Due (h.callers.set i (.pushing rest
                  (Registry.addOne (h.scene.shared.registry, added) e).2)) :=
                due_set hi (by simp [Caller.isDue, hcount])
              exact hs.call hcons rfl rfl (departed_addOne hc added e) (fun _ => .inr hnew) fun _ => hnew
  | signalling =>
      exact ⟨hc, hs.listed.notify, hs.accounted, hs.departed_eq, hs.awake.notify hs.listed _⟩
  | visiting visit =>
      have hqueue := (Registry.perform_listed h.scene.shared.registry visit visit.2).queue
      refine hs.call (hc.perform visit) rfl rfl (departed_perform visit) ?_ (.set hi nofun)
      intro hsome
      exact .inl (hqueue ▸ hsome)

/-- Somebody comes and asks for an endpoint. -/
theorem come (hs : Sound r h) (hnone : h.consumer = none) :
    Sound r { h with consumer := some { number := h.given }, given := h.given + 1 } := by
  have hlisted := hs.listed.come
  have hseeks : h.seeks = h.strays := by rw [seeks, hnone]; rfl
  have hnumber := hlisted.mem_iff.not.mpr (show SeekPhase.knocking ≠ .listening by simp)
  have hwaiting : h.given ∉ h.scene.shared.arrivals.waiting := fun hmem => hnumber (List.mem_append_left _ hmem)
  rw [hseeks] at hlisted
  have haccounted := hs.accounted.come
  rw [hseeks] at haccounted
  refine ⟨hs.consistent, hlisted, haccounted, hs.departed_eq, hs.awake.alone, ?_, ?_, ?_⟩
  · rintro seek ⟨⟩ -
    exact .inl rfl
  · rintro seek ⟨⟩ hmem
    exact absurd hmem hwaiting
  · rintro seek ⟨⟩ hrelies -
    rcases hrelies with hphase | hphase | hmem
    · cases hphase
    · cases hphase
    · exact absurd hmem hwaiting

theorem consumer (hs : Sound r h) (hseek : h.consumer = some seek) (hpolling : h.polling = true) :
    Sound r { h with
      scene := (seek.step h.scene).1, consumer := (seek.step h.scene).2
      polling := (seek.step h.scene).2.any (·.phase ≠ .listening) } := by
  have hseeks := seeks_of_some hseek
  have hstep := seek.stepped hs.consistent
  have hlisted := (hseeks ▸ hs.listed).step hstep
  exact ⟨hstep.consistent hs.consistent, hlisted, (hseeks ▸ hs.accounted).step (hseeks ▸ hs.listed) hstep,
    hstep.departed_eq hs.consistent hs.departed_eq, hs.awake.step hseek hpolling hstep hlisted⟩

/-- The consumer goes away while it is not polled. -/
theorem drop (hs : Sound r h) (hseek : h.consumer = some seek) (hpolling : h.polling = false) :
    Sound r { h with scene := seek.leave h.scene, consumer := none } := by
  have hseeks := seeks_of_some hseek
  have hphase : ∀ e, seek.phase ≠ .found e := by
    intro e hfound
    exact absurd (hs.awake.still seek hseek hpolling) (by simp [hfound])
  refine ⟨hs.consistent, (hseeks ▸ hs.listed).leave, (hseeks ▸ hs.accounted).leave (hseeks ▸ hs.listed) hphase,
    ?_, hs.awake.alone, nofun, nofun, nofun⟩
  simpa [Seek.leave, Scene.note, Deed.entries, Shared.forget] using hs.departed_eq

/-- While the consumer is not polled, a stray comes. -/
theorem visitor (hs : Sound r h) (hpolling : h.polling = false) :
    Sound r { h with strays := h.strays ++ [{ number := h.given }], given := h.given + 1 } := by
  have hperm : (({ number := h.given } : Seek) :: h.seeks).Perm
      (h.consumer.toList ++ (h.strays ++ [{ number := h.given }])) := by
    rw [← List.append_assoc]
    exact (List.perm_append_singleton _ _).symm
  exact ⟨hs.consistent, hs.listed.come.perm hperm, hs.accounted.come.perm hperm, hs.departed_eq,
    hs.awake.aside hpolling (fun _ _ hmem => ⟨hmem, rfl, rfl⟩) id⟩

/-- The stray at a place, and everybody else. -/
theorem perm_stray {i : Nat} (hi : h.strays[i]? = some seek) :
    h.seeks.Perm (seek :: (h.consumer.toList ++ replace i none h.strays)) :=
  ((perm_replace hi).append_left _).trans List.perm_middle

/-- While there is a stray the consumer is not polled. -/
theorem polling_eq_false (hs : Sound r h) {i : Nat} (hi : h.strays[i]? = some seek) : h.polling = false := by
  by_contra hpolled
  rw [hs.awake.alone (Bool.not_eq_false _ ▸ hpolled)] at hi
  cases hi

/-- A stray is not the consumer. -/
theorem number_ne (hs : Sound r h) {i : Nat} (hi : h.strays[i]? = some seek) {other : Seek}
    (hother : h.consumer = some other) : other.number ≠ seek.number := by
  have hdistinct := hs.listed.distinct
  rw [seeks_of_some hother] at hdistinct
  intro heq
  exact (List.nodup_cons.mp hdistinct).1 (heq ▸ List.mem_map_of_mem (List.mem_of_getElem? hi))

theorem strayStep (hs : Sound r h) {i : Nat} (hi : h.strays[i]? = some seek) {scene : Scene}
    {next : Option Seek} (hstep : seek.Stepped h.scene scene next) :
    Sound r { h with scene, strays := replace i next h.strays } := by
  have hperm := perm_stray hi
  have hlisted := hs.listed.perm hperm
  have hback : (next.toList ++ (h.consumer.toList ++ replace i none h.strays)).Perm
      (h.consumer.toList ++ replace i next h.strays) :=
    (List.perm_append_comm_assoc _ _ _).trans ((replace_perm i next h.strays).symm.append_left _)
  refine ⟨hstep.consistent hs.consistent, (hlisted.step hstep).perm hback,
    ((hs.accounted.perm hperm).step hlisted hstep).perm hback,
    hstep.departed_eq hs.consistent hs.departed_eq, hs.awake.aside (hs.polling_eq_false hi) ?_ hstep.queue_ne_nil⟩
  intro other hother hmem
  exact hstep.waiting hs.listed.spare (hs.number_ne hi hother) hmem

theorem strayLeave (hs : Sound r h) {i : Nat} (hi : h.strays[i]? = some seek)
    (hphase : ∀ e, seek.phase ≠ .found e) :
    Sound r { h with scene := seek.leave h.scene, strays := replace i none h.strays } := by
  have hperm := perm_stray hi
  have hlisted := hs.listed.perm hperm
  refine ⟨hs.consistent, hlisted.leave, (hs.accounted.perm hperm).leave hlisted hphase, ?_,
    hs.awake.aside (hs.polling_eq_false hi) ?_ id⟩
  · simpa [Seek.leave, Scene.note, Deed.entries, Shared.forget] using hs.departed_eq
  · intro other hother hmem
    exact Signal.waiting_leave (hs.number_ne hi hother) hs.listed.nodup (hs.awake.first other hother) hmem

theorem move (hs : Sound r h) (m : Move) : Sound r (h.move m) := by
  have hc := hs.consistent
  have hdue : ∀ caller, Due h.callers → Due (h.callers ++ [caller]) := by
    rintro caller ⟨due, hmem, hdue⟩
    exact ⟨due, List.mem_append_left _ hmem, hdue⟩
  cases m with
  | add es => exact hs.call hc rfl rfl rfl .inl (hdue _)
  | visit visit => exact hs.call hc rfl rfl rfl .inl (hdue _)
  | caller i =>
      simp only [Handover.move]
      cases hi : h.callers[i]? with
      | some old => exact hs.caller hi
      | none => exact hs
  | ask =>
      simp only [Handover.move]
      cases hseek : h.consumer with
      | none => exact hs.come hseek
      | some seek => exact hs
  | poll =>
      simp only [Handover.move]
      split
      case isTrue hpoll =>
        have hstrays : h.strays = [] := List.isEmpty_iff.mp (Bool.and_eq_true_iff.mp hpoll).2
        exact ⟨hc, hs.listed, hs.accounted, hs.departed_eq, fun _ => hstrays, nofun, hs.awake.first,
          hs.awake.alert⟩
      case isFalse => exact hs
  | consumer =>
      simp only [Handover.move]
      split
      case h_1 seek hseek hpolling => exact hs.consumer hseek hpolling
      case h_2 => exact hs
  | pause =>
      simp only [Handover.move]
      split
      case isTrue hpause =>
        refine ⟨hc, hs.listed, hs.accounted, hs.departed_eq, nofun, ?_, hs.awake.first, hs.awake.alert⟩
        intro seek hseek _
        have hseek : h.consumer = some seek := hseek
        exact .inl (by simpa [hseek] using hpause)
      case isFalse => exact hs
  | drop =>
      simp only [Handover.move]
      split
      case h_1 seek hseek hpolling => exact hs.drop hseek hpolling
      case h_2 => exact hs
  | stray =>
      simp only [Handover.move]
      split
      case isTrue => exact hs
      case isFalse hpolling => exact hs.visitor (Bool.not_eq_true _ ▸ hpolling)
  | strayStep i =>
      simp only [Handover.move]
      cases hi : h.strays[i]? with
      | none => exact hs
      | some seek =>
          by_cases hphase : seek.phase = .listening
          · simp only [Seek.stepOnce, if_pos hphase]
            exact hs.strayLeave hi (by simp [hphase])
          · simp only [Seek.stepOnce, if_neg hphase]
            exact hs.strayStep hi (seek.stepped hc)
  | strayLeave i =>
      simp only [Handover.move]
      cases hi : h.strays[i]? with
      | none => exact hs
      | some seek =>
          dsimp only
          split
          case isTrue hphase => exact hs.strayLeave hi (by simp [hphase])
          case isFalse => exact hs

theorem run (hs : Sound r h) (moves : List Move) : Sound r (h.run moves) := by
  induction moves generalizing h with
  | nil => exact hs
  | cons m rest ih => exact ih (hs.move m)

end Sound

/-! ## No wake-up is lost -/

/-- The consumer waits although there is something in the discovery queue, and nobody is about to tell it. -/
structure Stranded (h : Handover) : Prop where
  queue : h.scene.shared.registry.discoveryQueue ≠ []
  waits : ∃ seek, h.consumer = some seek ∧ seek.phase = .listening ∧
    h.scene.shared.arrivals.isWoken seek.number = false
  spent : h.scene.shared.arrivals.kept = false
  quiet : ∀ caller ∈ h.callers, caller.isDue = false

theorem Sound.not_stranded {r : Registry} {h : Handover} (hs : Sound r h) : ¬ Stranded h := by
  intro hstranded
  obtain ⟨seek, hseek, hphase, hasleep⟩ := hstranded.waits
  have hlisted : Listed h.scene.shared.arrivals h.given (seek :: h.strays) := by
    have hlisted := hs.listed
    rwa [seeks_of_some hseek] at hlisted
  have hwaiting : seek.number ∈ h.scene.shared.arrivals.waiting := by
    refine (List.mem_append.mp (hlisted.mem_iff.mpr hphase)).resolve_right fun hwoken => ?_
    simp [Signal.isWoken, hwoken] at hasleep
  rcases hs.awake.alert seek hseek (.inr (.inr hwaiting)) hstranded.queue with hkept | ⟨caller, hcaller, hdue⟩
  · simp [hstranded.spent] at hkept
  · simp [hstranded.quiet caller hcaller] at hdue

/-- The entries that one seeker has taken out of the discovery queue. -/
def removedBy (n : Listener) (past : List Deed) : List Endpoint := (deedsOf n past).flatMap Deed.entries

/-- Whoever has a result has taken it, and nothing else; whoever has gone away without one has taken nothing. -/
theorem Sound.removedBy_eq {r : Registry} {h : Handover} (hs : Sound r h) (n : Listener) :
    (∀ e, .returned n e ∈ h.scene.past → removedBy n h.scene.past = [e]) ∧
      (.dropped n ∈ h.scene.past → removedBy n h.scene.past = []) := by
  have hmem : ∀ deed ∈ h.scene.past, deed.seeker = n → deed ∈ deedsOf n h.scene.past :=
    fun deed hdeed hseeker => List.mem_filter.mpr ⟨hdeed, decide_eq_true hseeker⟩
  have haccount := hs.accounted.account n
  unfold removedBy
  generalize deedsOf n h.scene.past = deeds at hmem haccount
  refine ⟨fun e hreturned => ?_, fun hdropped => ?_⟩
  · have hdeed := hmem _ hreturned rfl
    cases haccount with
    | served e' => simpa [Deed.entries, eq_comm] using hdeed
    | nothing => cases hdeed
    | taken | left => simp at hdeed
  · have hdeed := hmem _ hdropped rfl
    cases haccount with
    | nothing | left => rfl
    | taken | served => simp at hdeed

/-- What can be relied on after anything that happened to a registry. -/
structure Reliable (r : Registry) (h : Handover) : Prop where
  not_stranded : ¬ Stranded h
  returned : ∀ n e, .returned n e ∈ h.scene.past → removedBy n h.scene.past = [e]
  dropped : ∀ n, .dropped n ∈ h.scene.past → removedBy n h.scene.past = []
  /-- Nothing has left the discovery queue but what somebody has taken. -/
  departed_eq : departed h.scene.shared.registry = departed r ++ h.scene.past.flatMap Deed.entries

/-- **No wake-up is lost.** Begin with whatever calls have made of a registry, and perhaps a kept signal. However
    many callers add endpoints, however often a consumer comes, is polled and goes away, and whoever looks for
    an endpoint in between, no order of their steps leads to a consumer that waits unwoken while the queue holds
    an endpoint, no signal is kept and none is due. Whoever gets an endpoint has taken it, and nothing else, out
    of the queue, whoever goes away has taken nothing, and all that has left the queue was taken by somebody. -/
theorem never_stranded (calls : List Registry.Call) (kept : Bool) (s : Shared) (moves : List Move) :
    Reliable (.performAll {} calls) ((start (.performAll {} calls) kept s).run moves) := by
  have hs := (sound_start (Registry.consistent_empty.performAll calls) kept s).run moves
  exact ⟨hs.not_stranded, fun n => (hs.removedBy_eq n).1, fun n => (hs.removedBy_eq n).2, hs.departed_eq⟩

end Handover

end BitcoinCrawl
