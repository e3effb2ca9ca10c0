import OsLabs.FileDisks.Scheduler
import OsLabs.Lib.Loop

/-!
# Bounded fairness of the disk

With the policy `BSATF`, the requests are served once each, and none of them waits for more
requests than there are up to the end of its window.
-/

namespace OsLabs.FileDisks

open OsLabs.Checked OsLabs.FairWindow

variable {c : Config} {w i : ℕ} {disk disk' : Disk} {tick : Tick} {ticks : ℕ → Tick}
  {state : RequestState} {block : ℤ}

def Layout.OnDisk (layout : Layout) (block : ℤ) : Prop := (layout.blockToTrackMap block).isSome

/-- All requests, those that come late after the others. -/
def Config.blocks (c : Config) : List ℤ := c.requests ++ c.lateRequests

/-- The error of a request for a block that is not on the disk. -/
def Config.Stray (c : Config) (e : PyError) : Prop :=
  e = .keyError ∧ ∃ block ∈ c.blocks, ¬ c.layout.OnDisk block

theorem trackOf_safe (hblock : block ∈ c.blocks) :
    Safe c.Stray (c.layout.trackOf block) fun track =>
      c.layout.blockToTrackMap block = some track := by
  rw [Layout.trackOf]
  split
  case h_1 hnone => exact ⟨rfl, block, hblock, by simp [Layout.OnDisk, hnone]⟩
  case h_2 track htrack => exact htrack

theorem setItem_eq {α : Type} {items : List α} {item : α} (h : i < items.length) :
    setItem items i item = .ok (items.set i item) := by
  rw [setItem, if_neg (Int.natCast_nonneg i).not_gt]
  rw [if_pos ⟨Int.natCast_nonneg i, Int.ofNat_lt.mpr h⟩, Int.toNat_natCast]

/-! ## The choice of a request -/

/-- What the loop of `DoSATF` has chosen from a list. -/
def Disk.Chosen (c : Config) (disk : Disk) (rList : List (ℤ × ℕ)) (best : ℤ × ℤ × ℚ) : Prop :=
  ∃ request ∈ rList, disk.requestState[request.2]? ≠ some .done ∧
    c.layout.OnDisk request.1 ∧ best.1 = request.1 ∧ best.2.1 = request.2

theorem estimate_loop_safe {rList : List (ℤ × ℕ)}
    (hstates : ∀ request ∈ rList, request.2 < disk.requestState.length)
    (hblocks : ∀ request ∈ rList, request.1 ∈ c.blocks) (best : ℤ × ℤ × ℚ) :
    Safe c.Stray (rList.foldlM (disk.estimate c.layout tick) best) fun best' =>
      disk.Chosen c rList best' ∨ best' = best ∧ (best.2.2 = -1 →
        ∀ request ∈ rList, disk.requestState[request.2]? = some .done) := by
  induction rList generalizing best with
  | nil => exact .inr ⟨rfl, fun _ _ hrequest => absurd hrequest List.not_mem_nil⟩
  | cons request rest ih =>
      have hrest := ih (fun r hr => hstates r (List.mem_cons_of_mem _ hr))
        (fun r hr => hblocks r (List.mem_cons_of_mem _ hr))
      have hlater : ∀ best', disk.Chosen c rest best' → disk.Chosen c (request :: rest) best' :=
        fun best' ⟨r, hr, h⟩ => ⟨r, List.mem_cons_of_mem _ hr, h⟩
      have hstate := hstates request List.mem_cons_self
      rw [List.foldlM_cons, Disk.estimate]
      split
      case h_1 hnone =>
        rw [List.getElem?_eq_none_iff] at hnone
        omega
      case h_2 hdone =>
        refine (hrest best).ok_bind.mono fun best' h => h.imp (hlater best') ?_
        exact fun ⟨hsame, hall⟩ => ⟨hsame, fun hbest =>
          List.forall_mem_cons.mpr ⟨hdone, hall hbest⟩⟩
      case h_3 state hnot hsome =>
        rw [bind_assoc]
        refine (trackOf_safe (hblocks request List.mem_cons_self)).bind fun track htrack => ?_
        have hchosen : disk.requestState[request.2]? ≠ some .done :=
          fun hdone => hnot (Option.some.inj (hsome.symm.trans hdone))
        have honDisk : c.layout.OnDisk request.1 := by simp [Layout.OnDisk, htrack]
        split
        case isTrue =>
          refine (hrest _).ok_bind.mono fun best' h => .inl (h.elim (hlater best') ?_)
          rintro ⟨rfl, -⟩
          exact ⟨request, List.mem_cons_self, hchosen, honDisk, rfl, rfl⟩
        case isFalse hworse =>
          refine (hrest _).ok_bind.mono fun best' h => h.imp (hlater best') ?_
          exact fun ⟨hsame, _⟩ => ⟨hsame, fun hbest => absurd (.inl hbest) hworse⟩

theorem doSATF_safe {rList : List (ℤ × ℕ)}
    (hstates : ∀ request ∈ rList, request.2 < disk.requestState.length)
    (hblocks : ∀ request ∈ rList, request.1 ∈ c.blocks)
    (honDisk : ∀ block, c.layout.OnDisk block → block ≠ -1)
    (hopen : ∃ request ∈ rList, disk.requestState[request.2]? ≠ some .done) :
    Safe c.Stray (disk.doSATF c.layout tick rList) fun chosen =>
      ∃ request ∈ rList, disk.requestState[request.2]? ≠ some .done ∧
        c.layout.OnDisk request.1 ∧ chosen = (request.1, (request.2 : ℤ)) := by
  rw [Disk.doSATF]
  refine (estimate_loop_safe hstates hblocks _).bind fun best h => ?_
  rcases h with ⟨request, hmem, hnot, hrequest, hblock, hindex⟩ | ⟨-, hall⟩
  · have hblockNe : best.1 ≠ -1 := hblock ▸ honDisk _ hrequest
    have hindexNe : best.2.1 ≠ -1 := by omega
    rw [if_neg hblockNe, if_neg hindexNe]
    exact ⟨request, hmem, hnot, hrequest, Prod.ext hblock hindex⟩
  · rcases hopen with ⟨request, hmem, hnot⟩
    exact absurd (hall rfl request hmem) hnot

/-! ## What holds between the requests -/

/-- The requests that have come are in the queue, and the scheduled ones are done. -/
structure Disk.Steady (c : Config) (w : ℕ) (disk : Disk) : Prop where
  queue : disk.requestQueue = (c.requests ++ c.lateRequests.take disk.lateCount).zipIdx
  states : disk.requestState.length = disk.requestQueue.length
  schedule : Schedule w disk.served
  count : disk.served.length = disk.requestCount
  done_iff : ∀ j, disk.requestState[j]? = some .done ↔ j ∈ disk.served
  onDisk : ∀ j ∈ disk.served, ∃ block, c.blocks[j]? = some block ∧ c.layout.OnDisk block
  arm : (c.layout.tracksBeginEnd disk.armTrack).isSome

/-- A request comes late for each that is chosen. -/
structure Disk.Idle (c : Config) (w : ℕ) (disk : Disk) : Prop extends disk.Steady c w where
  late : disk.lateCount = min disk.requestCount c.lateRequests.length
  currWindow : disk.currWindow = window w (disk.requestCount - 1)
  running : disk.isDone = false

/-- Request `i` is the one to serve. -/
structure Disk.Aimed (c : Config) (w : ℕ) (disk : Disk) (i : ℕ) : Prop extends
    disk.Steady c w where
  currWindow : disk.currWindow = window w disk.requestCount
  running : disk.isDone = false
  index : disk.currentIndex = i
  queued : disk.requestQueue[i]? = some (disk.currentBlock, i)
  not_served : i ∉ disk.served
  within : i < window w disk.requestCount
  current : c.layout.OnDisk disk.currentBlock

/-- The arm is on its way to a track, or the head is over one. -/
def Disk.Moving (c : Config) (disk : Disk) : Prop :=
  disk.state = .seek ∧ (∃ track, disk.armTarget = some track ∧
    (c.layout.tracksBeginEnd track).isSome) ∨ disk.state = .rotate ∨ disk.state = .xfer

structure Disk.Busy (c : Config) (w : ℕ) (disk : Disk) (i : ℕ) : Prop extends
    disk.Aimed c w i where
  late : disk.lateCount = min (disk.requestCount + 1) c.lateRequests.length
  moving : disk.Moving c

theorem Disk.Steady.getElem?_queue (h : disk.Steady c w) {j : ℕ} {request : ℤ × ℕ}
    (hj : disk.requestQueue[j]? = some request) :
    request.2 = j ∧ c.blocks[j]? = some request.1 := by
  rw [h.queue, List.getElem?_zipIdx, Option.map_eq_some_iff] at hj
  rcases hj with ⟨block, hblock, rfl⟩
  refine ⟨zero_add j, ?_⟩
  have hlt := (List.getElem?_eq_some_iff.mp hblock).1
  rw [Config.blocks, ← List.take_append_drop disk.lateCount c.lateRequests, ← List.append_assoc,
    List.getElem?_append_left hlt, hblock]

theorem Disk.Steady.length_queue (h : disk.Steady c w) :
    disk.requestQueue.length = c.requests.length + min disk.lateCount c.lateRequests.length := by
  rw [h.queue, List.length_zipIdx, List.length_append, List.length_take]

theorem Disk.Steady.lt_length (h : disk.Steady c w) {j : ℕ} (hj : j ∈ disk.served) :
    j < disk.requestQueue.length := by
  rw [← h.states]
  exact (List.getElem?_eq_some_iff.mp ((h.done_iff j).mpr hj)).1

theorem Disk.Steady.count_le (h : disk.Steady c w) :
    disk.requestCount ≤ disk.requestQueue.length := by
  rw [← h.count]
  exact length_le h.schedule.nodup fun j hj => h.lt_length hj

/-! ## The next request -/

/-- The layout and the options with which the requests are scheduled. -/
structure Config.Windowed (c : Config) (w : ℕ) : Prop where
  layout : ∃ blocks, c.layout.Consistent 3 blocks
  policy : c.policy = .bsatf
  window : c.window = w
  pos : 0 < w

theorem Config.Windowed.onDisk_ne (h : c.Windowed w) (block : ℤ) (hblock : c.layout.OnDisk block) :
    block ≠ -1 := by
  rcases h.layout with ⟨blocks, hlayout⟩
  have hnonneg := ((hlayout.isSome_iff block).mp hblock).1
  omega

theorem Config.Windowed.fairWindow_eq (h : c.Windowed w) : c.fairWindow = w := by
  have hwindow : c.window ≠ -1 := by
    rw [h.window]
    omega
  rw [Config.fairWindow, if_pos ⟨h.policy, hwindow⟩, h.window]

/-- The window is moved when the requests that are done fill it. -/
theorem Disk.Idle.getWindow_eq (h : disk.Idle c w) (hc : c.Windowed w) :
    disk.getWindow c = ((window w disk.requestCount : ℤ),
      { disk with currWindow := (window w disk.requestCount : ℤ) }) := by
  have hcurr := h.currWindow
  have hmoved : (if 0 < disk.requestCount ∧ disk.requestCount % c.fairWindow = 0 then
      { disk with currWindow := disk.currWindow + c.fairWindow } else disk) =
      { disk with currWindow := (window w disk.requestCount : ℤ) } := by
    have hmod : (disk.requestCount : ℤ) % w = 0 ↔ disk.requestCount % w = 0 := by omega
    rw [hc.fairWindow_eq, FairWindow.window_eq disk.requestCount, hcurr]
    simp only [hmod]
    split
    · rw [Nat.cast_add]
    · rw [← hcurr]
  rw [Disk.getWindow, if_neg (by omega), if_pos (by rw [hc.fairWindow_eq]; omega), hmoved]

/-- The choice of a request that is open in the window. -/
structure Disk.Chooses (c : Config) (w : ℕ) (disk : Disk) (block index : ℤ) (i : ℕ) : Prop where
  index : index = i
  queued : disk.requestQueue[i]? = some (block, i)
  not_served : i ∉ disk.served
  within : i < window w disk.requestCount
  onDisk : c.layout.OnDisk block

theorem Disk.Idle.choose_safe (h : disk.Idle c w) (hc : c.Windowed w)
    (hmore : disk.requestCount ≠ disk.requestQueue.length) (tick : Tick) :
    Safe c.Stray (disk.choose c tick) fun chosen =>
      chosen.1 = { disk with currWindow := (window w disk.requestCount : ℤ) } ∧
        ∃ i, disk.Chooses c w chosen.2.1 chosen.2.2 i := by
  have hcount := h.count_le
  have hend : (if (window w disk.requestCount : ℤ) > disk.requestQueue.length then
      (disk.requestQueue.length : ℤ) else window w disk.requestCount).toNat =
      min (window w disk.requestCount) disk.requestQueue.length := by
    split <;> omega
  have hmem : ∀ request ∈ disk.requestQueue.take
      (min (window w disk.requestCount) disk.requestQueue.length),
      disk.requestQueue[request.2]? = some request ∧ request.2 < window w disk.requestCount := by
    intro request hrequest
    rcases List.mem_take_iff_getElem.mp hrequest with ⟨j, hj, rfl⟩
    have hqueued := List.getElem?_eq_getElem (l := disk.requestQueue) (i := j) (by omega)
    rw [(h.getElem?_queue hqueued).1]
    exact ⟨hqueued, by omega⟩
  have hopen : ∃ request ∈ disk.requestQueue.take
      (min (window w disk.requestCount) disk.requestQueue.length),
      disk.requestState[request.2]? ≠ some .done := by
    have hpast : disk.served.length <
        min (window w disk.requestCount) disk.requestQueue.length := by
      have hwindow := lt_window (n := disk.requestCount) hc.pos
      rw [h.count]
      omega
    rcases exists_open hpast with ⟨i, hi, hnot⟩
    have hqueued := List.getElem?_eq_getElem (l := disk.requestQueue) (i := i) (by omega)
    refine ⟨disk.requestQueue[i], List.mem_take_iff_getElem.mpr ⟨i, by omega, rfl⟩, ?_⟩
    rw [(h.getElem?_queue hqueued).1]
    exact fun hdone => hnot ((h.done_iff i).mp hdone)
  rw [Disk.choose, hc.policy]
  dsimp only
  rw [h.getWindow_eq hc]
  dsimp only
  rw [hend]
  refine (doSATF_safe (fun request hrequest => ?_) (fun request hrequest => ?_) hc.onDisk_ne
    hopen).bind fun chosen hchosen => ⟨rfl, ?_⟩
  · have hlt := (List.getElem?_eq_some_iff.mp (hmem request hrequest).1).1
    exact hlt.trans_eq h.states.symm
  · exact List.mem_of_getElem? (h.getElem?_queue (hmem request hrequest).1).2
  · rcases hchosen with ⟨request, hrequest, hnot, honDisk, rfl⟩
    exact ⟨request.2, rfl, (hmem request hrequest).1,
      fun hserved => hnot ((h.done_iff request.2).mpr hserved), (hmem request hrequest).2, honDisk⟩

/-- The state of the disk and of request `i`. -/
def Disk.setState (disk : Disk) (i : ℕ) (state : RequestState) : Disk :=
  { disk with state := state, requestState := disk.requestState.set i state }

theorem switchState_eq (hindex : disk.currentIndex = i) (hi : i < disk.requestState.length)
    (state : RequestState) : disk.switchState state = .ok (disk.setState i state) := by
  have hset : setItem disk.requestState disk.currentIndex state =
      .ok (disk.requestState.set i state) := by
    rw [hindex, setItem_eq hi]
  rw [Disk.switchState, hset]
  rfl

theorem Disk.Aimed.lt_states (h : disk.Aimed c w i) : i < disk.requestState.length := by
  rw [h.states]
  exact (List.getElem?_eq_some_iff.mp h.queued).1

theorem Disk.Aimed.switchState_eq (h : disk.Aimed c w i) (state : RequestState) :
    disk.switchState state = .ok (disk.setState i state) :=
  FileDisks.switchState_eq h.index h.lt_states state

theorem Disk.Aimed.setState (h : disk.Aimed c w i) (hstate : state ≠ .done) :
    (disk.setState i state).Aimed c w i :=
  { h with
    states := List.length_set.trans h.states
    done_iff := fun j => by
      have hlt := h.lt_states
      have hnot := h.not_served
      have hdone := h.done_iff j
      rw [Disk.setState, List.getElem?_set]
      grind }

theorem Disk.Aimed.planSeek_safe (h : disk.Aimed c w i) {track : ℕ}
    (htrack : (c.layout.tracksBeginEnd track).isSome) :
    Safe c.Stray (disk.planSeek track) fun disk' => disk'.Aimed c w i ∧ disk'.Moving c ∧
      disk'.lateCount = disk.lateCount ∧ disk'.requestCount = disk.requestCount := by
  have hseek : (disk.setState i .seek).Aimed c w i := h.setState (by decide)
  rw [Disk.planSeek, h.switchState_eq, ok_bind]
  split
  case isTrue =>
    rw [hseek.switchState_eq]
    exact ⟨hseek.setState (by decide), .inr (.inl rfl), rfl, rfl⟩
  case isFalse => exact ⟨{ hseek with }, .inl ⟨rfl, track, rfl, htrack⟩, rfl, rfl⟩

theorem Disk.Steady.addLateRequest (h : disk.Steady c w) : (disk.addLateRequest c).Steady c w := by
  rw [Disk.addLateRequest]
  split
  case h_1 => exact h
  case h_2 block hblock =>
    exact { h with
      queue := by
        have hlength : disk.requestQueue.length =
            (c.requests ++ c.lateRequests.take disk.lateCount).length := by
          rw [h.queue, List.length_zipIdx]
        rw [Disk.addRequest, Disk.addQueueEntry, List.take_add_one, hblock, ← List.append_assoc,
          List.zipIdx_append, ← h.queue, hlength]
        simp
      states := by
        simp [Disk.addRequest, Disk.addQueueEntry, h.states]
      done_iff := fun j => by
        have hdone := h.done_iff j
        have hlt := h.states
        simp only [Disk.addRequest, Disk.addQueueEntry]
        grind }

theorem Disk.Aimed.busy_addLateRequest (h : disk.Aimed c w i) (hmoving : disk.Moving c)
    (hlate : disk.lateCount = min disk.requestCount c.lateRequests.length) :
    (disk.addLateRequest c).Busy c w i ∧
      (disk.addLateRequest c).requestCount = disk.requestCount := by
  have hsteady := h.toSteady.addLateRequest
  have hlt := (List.getElem?_eq_some_iff.mp h.queued).1
  rw [Disk.addLateRequest] at hsteady ⊢
  rcases hblock : c.lateRequests[disk.lateCount]? with _ | block
  · have hpast := List.getElem?_eq_none_iff.mp hblock
    refine ⟨{ h with late := ?_, moving := hmoving }, rfl⟩
    change disk.lateCount = min (disk.requestCount + 1) c.lateRequests.length
    omega
  · rw [hblock] at hsteady
    have hbefore := (List.getElem?_eq_some_iff.mp hblock).1
    refine ⟨{ h with
      toSteady := hsteady
      queued := (List.getElem?_append_left hlt).trans h.queued
      late := ?_
      moving := hmoving }, rfl⟩
    change disk.lateCount + 1 = min (disk.requestCount + 1) c.lateRequests.length
    omega

theorem Config.Windowed.beginEnd_isSome (hc : c.Windowed w) {track : ℕ}
    (htrack : c.layout.blockToTrackMap block = some track) :
    (c.layout.tracksBeginEnd track).isSome := by
  rcases hc.layout with ⟨blocks, hlayout⟩
  rcases (hlayout.toTrack_iff block track).mp htrack with ⟨first, last, hbeginEnd, -⟩
  rw [hbeginEnd, Option.isSome_some]

/-- A request is chosen, or there are no more. -/
theorem Disk.Idle.getNextIo_safe (h : disk.Idle c w) (hc : c.Windowed w) (tick : Tick) :
    Safe c.Stray (disk.getNextIo c tick) fun disk' =>
      (∃ i, disk'.Busy c w i ∧ disk'.requestCount = disk.requestCount) ∨
        disk.requestCount = disk.requestQueue.length ∧ disk' = { disk with isDone := true } := by
  rw [Disk.getNextIo]
  split
  case isTrue hnone => exact .inr ⟨hnone, rfl⟩
  case isFalse hmore =>
    refine (h.choose_safe hc hmore tick).bind ?_
    rintro ⟨_, block, index⟩ ⟨rfl, i, hchosen⟩
    dsimp only at hchosen ⊢
    have haimed : ({ disk with
        currWindow := (window w disk.requestCount : ℤ)
        currentBlock := block
        currentIndex := index } : Disk).Aimed c w i :=
      { h with
        currWindow := rfl
        index := hchosen.index
        queued := hchosen.queued
        not_served := hchosen.not_served
        within := hchosen.within
        current := hchosen.onDisk }
    have hblock := List.mem_of_getElem? (h.getElem?_queue hchosen.queued).2
    refine (trackOf_safe hblock).bind fun track htrack => ?_
    refine (haimed.planSeek_safe (hc.beginEnd_isSome htrack)).bind ?_
    rintro disk' ⟨haimed', hmoving, hlateCount, hrequestCount⟩
    have hlate : disk'.lateCount = min disk'.requestCount c.lateRequests.length := by
      rw [hlateCount, hrequestCount]
      exact h.late
    rcases haimed'.busy_addLateRequest hmoving hlate with ⟨hbusy, hcount⟩
    exact .inl ⟨i, hbusy, hcount.trans hrequestCount⟩

/-! ## One tick -/

def RequestState.phase : RequestState → ℕ
  | .seek => 2
  | .rotate => 1
  | _ => 0

/-- It falls whenever the state of the disk changes. -/
def Disk.rank (c : Config) (disk : Disk) : ℕ :=
  3 * (c.blocks.length - disk.requestCount) + disk.state.phase

/-- The tick ends what the disk does. -/
def Tick.ends (tick : Tick) : RequestState → Bool
  | .seek => tick.doneWithSeek
  | .rotate => tick.doneWithRotation
  | .xfer => tick.doneWithTransfer
  | _ => true

theorem Disk.Aimed.schedule_concat (h : disk.Aimed c w i) : Schedule w (disk.served ++ [i]) :=
  h.schedule.concat h.not_served (h.count.symm ▸ h.within)

theorem Disk.Aimed.count_lt (h : disk.Aimed c w i) : disk.requestCount < c.blocks.length := by
  have hi := (List.getElem?_eq_some_iff.mp h.queued).1
  have hle : (disk.served ++ [i]).length ≤ disk.requestQueue.length := by
    refine length_le h.schedule_concat.nodup fun j hj => ?_
    rcases List.mem_append.mp hj with hj | hj
    · exact h.lt_length hj
    · exact List.mem_singleton.mp hj ▸ hi
  rw [List.length_append, h.count, List.length_singleton, h.length_queue] at hle
  rw [Config.blocks, List.length_append]
  omega

theorem Disk.Busy.setState (h : disk.Busy c w i) (hstate : state = .rotate ∨ state = .xfer) :
    (disk.setState i state).Busy c w i :=
  { h.toAimed.setState (by rcases hstate with rfl | rfl <;> decide) with
    late := h.late
    moving := .inr hstate }

theorem rank_setState_lt (h : state.phase < disk.state.phase) :
    (disk.setState i state).rank c < disk.rank c :=
  Nat.add_lt_add_left h _

theorem Disk.Busy.finishSeek (h : disk.Busy c w i) (tick : Tick) :
    ∃ disk', disk.finishSeek tick = .ok disk' ∧ disk'.Busy c w i ∧
      (disk' = disk ∧ ¬ (disk.state = .seek ∧ tick.doneWithSeek) ∨ disk'.rank c < disk.rank c) := by
  rw [Disk.finishSeek]
  split
  case isTrue hends =>
    rcases h.moving with ⟨-, track, htarget, htrack⟩ | hrotate | hxfer
    · have harrived : ({ disk with armTrack := track } : Disk).Busy c w i :=
        { h with arm := htrack }
      refine ⟨_, ?_, harrived.setState (.inl rfl), .inr (rank_setState_lt ?_)⟩
      · split
        case h_1 hnone => cases htarget.symm.trans hnone
        case h_2 track' htarget' =>
          cases htarget.symm.trans htarget'
          exact harrived.switchState_eq .rotate
      · change RequestState.phase .rotate < disk.state.phase
        rw [hends.1]
        decide
    · exact absurd (hends.1.symm.trans hrotate) (by decide)
    · exact absurd (hends.1.symm.trans hxfer) (by decide)
  case isFalse hgoes => exact ⟨disk, rfl, h, .inl ⟨rfl, hgoes⟩⟩

theorem Disk.Busy.finishRotation (h : disk.Busy c w i) (tick : Tick) :
    ∃ disk', disk.finishRotation tick = .ok disk' ∧ disk'.Busy c w i ∧
      (disk' = disk ∧ ¬ (disk.state = .rotate ∧ tick.doneWithRotation) ∨
        disk'.rank c < disk.rank c) := by
  rw [Disk.finishRotation]
  split
  case isTrue hends =>
    refine ⟨_, h.switchState_eq .xfer, h.setState (.inr rfl), .inr (rank_setState_lt ?_)⟩
    rw [hends.1]
    decide
  case isFalse hgoes => exact ⟨disk, rfl, h, .inl ⟨rfl, hgoes⟩⟩

/-- All requests that have come are done. -/
structure Disk.Finished (c : Config) (w : ℕ) (disk : Disk) : Prop where
  isDone : disk.isDone = true
  schedule : Schedule w disk.served
  onDisk : ∀ j ∈ disk.served, ∃ block, c.blocks[j]? = some block ∧ c.layout.OnDisk block
  length : disk.served.length =
    c.requests.length + min disk.served.length c.lateRequests.length

theorem Disk.Idle.finished (h : disk.Idle c w)
    (hnone : disk.requestCount = disk.requestQueue.length) :
    ({ disk with isDone := true } : Disk).Finished c w where
  isDone := rfl
  schedule := h.schedule
  onDisk := h.onDisk
  length := by
    have hlength := h.length_queue
    have hlate := h.late
    have hcount := h.count
    dsimp only
    omega

theorem trackOf_eq (hblock : c.layout.OnDisk block) :
    ∃ track, c.layout.trackOf block = .ok track := by
  rcases Option.isSome_iff_exists.mp hblock with ⟨track, htrack⟩
  refine ⟨track, ?_⟩
  rw [Layout.trackOf, htrack]

theorem stayInTransfer_eq (disk : Disk) (hcurrent : c.layout.OnDisk block)
    (hnext : c.layout.OnDisk disk.currentBlock)
    (harm : (c.layout.tracksBeginEnd disk.armTrack).isSome) (hindex : disk.currentIndex = i)
    (hi : i < disk.requestState.length) :
    ∃ disk', disk.stayInTransfer c.layout block = .ok disk' ∧
      (disk' = disk ∨ disk' = disk.setState i .xfer) := by
  rcases trackOf_eq hcurrent with ⟨track, htrack⟩
  rcases trackOf_eq hnext with ⟨nextTrack, hnextTrack⟩
  rcases Option.isSome_iff_exists.mp harm with ⟨⟨first, last⟩, hbeginEnd⟩
  rw [Disk.stayInTransfer, htrack, hnextTrack, ok_bind, ok_bind, hbeginEnd]
  split
  case isTrue =>
    dsimp only
    split
    case isTrue => exact ⟨_, switchState_eq hindex hi .xfer, .inr rfl⟩
    case isFalse => exact ⟨_, rfl, .inl rfl⟩
  case isFalse => exact ⟨_, rfl, .inl rfl⟩

/-- Request `i` is done. -/
def Disk.complete (disk : Disk) (i : ℕ) : Disk :=
  { disk.setState i .done with
    requestCount := disk.requestCount + 1
    served := disk.served ++ [i] }

theorem Disk.Busy.complete (h : disk.Busy c w i) : (disk.complete i).Idle c w :=
  { h with
    states := List.length_set.trans h.states
    schedule := h.schedule_concat
    count := by
      rw [Disk.complete, List.length_append, h.count]
      rfl
    done_iff := fun j => by
      have hlt := h.lt_states
      have hdone := h.done_iff j
      rw [Disk.complete, Disk.setState, List.getElem?_set, List.mem_append, List.mem_singleton]
      grind
    onDisk := fun j hj => by
      rcases List.mem_append.mp hj with hj | hj
      · exact h.onDisk j hj
      · rw [List.mem_singleton.mp hj]
        exact ⟨_, (h.getElem?_queue h.queued).2, h.current⟩
    late := h.late
    currWindow := h.currWindow
    running := h.running }

theorem Disk.Busy.finishTransfer_eq (h : disk.Busy c w i) (hc : c.Windowed w)
    (hends : disk.state = .xfer ∧ tick.doneWithTransfer) :
    disk.finishTransfer c tick = (do
      let disk' ← (disk.complete i).getNextIo c tick
      disk'.stayInTransfer c.layout disk.currentBlock) := by
  have hcomplete : (disk.setState i .done).countRequest.switchState .done =
      .ok (disk.complete i) := by
    have hlt : i < (disk.setState i .done).countRequest.requestState.length :=
      h.lt_states.trans_eq List.length_set.symm
    have hindex : (disk.setState i .done).countRequest.currentIndex = i := h.index
    rw [FileDisks.switchState_eq hindex hlt]
    simp only [Disk.setState, Disk.countRequest, Disk.complete, h.index, List.set_set,
      Int.toNat_natCast]
  have hwindow : (disk.complete i).updateWindow c = disk.complete i := by
    have hne : c.fairWindow ≠ -1 := by
      rw [hc.fairWindow_eq]
      omega
    rw [Disk.updateWindow, if_neg fun hfair => hne hfair.1]
  rw [Disk.finishTransfer, if_pos hends, h.switchState_eq, ok_bind, hcomplete, ok_bind, hwindow]
  rfl

theorem Disk.Busy.finishTransfer_safe (h : disk.Busy c w i) (hc : c.Windowed w) (tick : Tick) :
    Safe c.Stray (disk.finishTransfer c tick) fun disk' =>
      (∃ j, disk'.Busy c w j) ∧ (disk' = disk ∧ ¬ (disk.state = .xfer ∧ tick.doneWithTransfer) ∨
        disk'.rank c < disk.rank c) ∨ disk'.Finished c w := by
  by_cases hends : disk.state = .xfer ∧ tick.doneWithTransfer
  case neg =>
    rw [Disk.finishTransfer, if_neg hends]
    exact .inl ⟨⟨i, h⟩, .inl ⟨rfl, hends⟩⟩
  rw [h.finishTransfer_eq hc hends]
  refine (h.complete.getNextIo_safe hc tick).bind ?_
  rintro disk' (⟨j, hbusy, hcount⟩ | ⟨hnone, rfl⟩)
  · rcases stayInTransfer_eq disk' h.current hbusy.current hbusy.arm hbusy.index
      hbusy.lt_states with ⟨final, hstay, hfinal⟩
    have hfinalBusy : final.Busy c w j := by
      rcases hfinal with rfl | rfl
      · exact hbusy
      · exact hbusy.setState (.inr rfl)
    have hfinalCount : final.requestCount = disk.requestCount + 1 := by
      rcases hfinal with rfl | rfl <;> exact hcount
    rw [hstay]
    refine .inl ⟨⟨j, hfinalBusy⟩, .inr ?_⟩
    have hlt := h.count_lt
    have hphase : final.state.phase ≤ 2 := by cases final.state <;> decide
    rw [Disk.rank, Disk.rank, hfinalCount]
    omega
  · have hlt : i < (disk.complete i).requestState.length :=
      h.lt_states.trans_eq List.length_set.symm
    rcases stayInTransfer_eq { disk.complete i with isDone := true } h.current h.current h.arm
      h.index hlt with ⟨final, hstay, hfinal⟩
    rw [hstay]
    have hfinished := h.complete.finished hnone
    rcases hfinal with rfl | rfl
    · exact .inr hfinished
    · exact .inr ⟨hfinished.isDone, hfinished.schedule, hfinished.onDisk, hfinished.length⟩

theorem Disk.Busy.animate_safe (h : disk.Busy c w i) (hc : c.Windowed w) (tick : Tick) :
    Safe c.Stray (disk.animate c tick) fun disk' =>
      (∃ j, disk'.Busy c w j) ∧ (disk' = disk ∧ ¬ tick.ends disk.state ∨
        disk'.rank c < disk.rank c) ∨ disk'.Finished c w := by
  rcases h.finishSeek tick with ⟨disk₁, hseek, h₁, hrank₁⟩
  rcases h₁.finishRotation tick with ⟨disk₂, hrotation, h₂, hrank₂⟩
  rw [Disk.animate, hseek, ok_bind, hrotation, ok_bind]
  refine (h₂.finishTransfer_safe hc tick).mono fun disk₃ h₃ => h₃.imp_left ?_
  rintro ⟨hbusy, hrank₃⟩
  refine ⟨hbusy, ?_⟩
  rcases hrank₁ with ⟨rfl, hgoes₁⟩ | hless₁ <;> rcases hrank₂ with ⟨rfl, hgoes₂⟩ | hless₂ <;>
    rcases hrank₃ with ⟨rfl, hgoes₃⟩ | hless₃
  case inl.inl.inl =>
    refine .inl ⟨rfl, fun hends => ?_⟩
    rcases h.moving with ⟨hstate, -⟩ | hstate | hstate
    · exact hgoes₁ ⟨hstate, by rwa [hstate] at hends⟩
    · exact hgoes₂ ⟨hstate, by rwa [hstate] at hends⟩
    · exact hgoes₃ ⟨hstate, by rwa [hstate] at hends⟩
  all_goals exact .inr (by omega)

/-! ## The whole run -/

theorem foldl_addQueueEntry (requests : List (ℤ × ℕ)) (disk : Disk) :
    requests.foldl (fun disk request => disk.addQueueEntry request.1 request.2) disk =
      { disk with
        requestQueue := disk.requestQueue ++ requests
        requestState := disk.requestState ++ List.replicate requests.length .null } := by
  induction requests generalizing disk with
  | nil => simp
  | cons request rest ih =>
      rw [List.foldl_cons, ih]
      simp [Disk.addQueueEntry, List.replicate_succ]

theorem Config.Windowed.start_idle (hc : c.Windowed w) : c.start.Idle c w := by
  rw [Config.start, foldl_addQueueEntry]
  rcases hc.layout with ⟨blocks, hlayout⟩
  exact
    { queue := by simp
      states := by simp
      schedule := schedule_nil
      count := rfl
      done_iff := fun j => by simp [List.getElem?_replicate]
      onDisk := fun j hj => absurd hj List.not_mem_nil
      arm := (hlayout.used_iff 0).mpr (by decide)
      late := by simp
      currWindow := by simp [hc.window]
      running := rfl }

/-- A request is served, or all of them are done. -/
def Disk.Good (c : Config) (w : ℕ) (disk : Disk) : Prop :=
  (∃ i, disk.Busy c w i) ∨ disk.Finished c w

theorem Config.Windowed.go_safe (hc : c.Windowed w) (ticks : ℕ → Tick) (n : ℕ) :
    Safe c.Stray (c.go ticks n) (Disk.Good c w) := by
  induction n with
  | zero =>
      refine (hc.start_idle.getNextIo_safe hc (ticks 0)).mono ?_
      rintro disk (⟨i, hbusy, -⟩ | ⟨hnone, rfl⟩)
      · exact .inl ⟨i, hbusy⟩
      · exact .inr (hc.start_idle.finished hnone)
  | succ n ih =>
      rw [Config.go]
      refine ih.bind fun disk hgood => ?_
      rcases hgood with ⟨i, hbusy⟩ | hfinished
      · rw [hbusy.running, if_neg Bool.false_ne_true]
        exact (hbusy.animate_safe hc _).mono fun disk' h => h.imp_left And.left
      · rw [hfinished.isDone, if_pos rfl]
        exact .inr hfinished

/-- Every tick is followed by one that ends what the disk does. -/
def Fair (ticks : ℕ → Tick) : Prop := ∀ state n, ∃ m, n < m ∧ (ticks m).ends state

/-- Each request is served once, and it is among those served before its window has passed. -/
structure Config.BoundedFair (c : Config) (w : ℕ) : Prop where
  in_time : ∀ ticks n, ∃ disk, c.go ticks n = .ok disk ∧ disk.served.Nodup ∧
    (∀ i ∈ disk.served, i < c.blocks.length) ∧ ∀ i < c.blocks.length,
      min ((i / w + 1) * w) c.blocks.length ≤ disk.served.length →
        i ∈ disk.served.take ((i / w + 1) * w)
  served : ∀ ticks, Fair ticks → ∃ n disk, c.go ticks n = .ok disk ∧ disk.isDone ∧
    disk.served.Perm (List.range c.blocks.length)

theorem Disk.Good.schedule (h : disk.Good c w) : Schedule w disk.served :=
  h.elim (fun ⟨_, hbusy⟩ => hbusy.schedule) Disk.Finished.schedule

theorem Disk.Good.onDisk (h : disk.Good c w) :
    ∀ j ∈ disk.served, ∃ block, c.blocks[j]? = some block ∧ c.layout.OnDisk block :=
  h.elim (fun ⟨_, hbusy⟩ => hbusy.onDisk) Disk.Finished.onDisk

theorem Disk.Good.lt_length (h : disk.Good c w) (i : ℕ) (hi : i ∈ disk.served) :
    i < c.blocks.length := by
  rcases h.onDisk i hi with ⟨block, hblock, -⟩
  exact (List.getElem?_eq_some_iff.mp hblock).1

/-- The requests that come late are waited for, unless there were none to begin with. -/
theorem Disk.Finished.perm (h : disk.Finished c w)
    (hsome : c.requests = [] → c.lateRequests = []) :
    disk.served.Perm (List.range c.blocks.length) := by
  have hlength := h.length
  have hempty : c.requests.length = 0 → c.lateRequests.length = 0 := by simpa using hsome
  refine perm_range h.schedule.nodup ?_ (Disk.Good.lt_length (.inr h))
  rw [Config.blocks, List.length_append]
  omega

theorem Config.Windowed.boundedFair (hc : c.Windowed w)
    (hsome : c.requests = [] → c.lateRequests = [])
    (honDisk : ∀ block ∈ c.blocks, c.layout.OnDisk block) : c.BoundedFair w := by
  have hok : ∀ ticks n, ∃ disk, c.go ticks n = .ok disk ∧ disk.Good c w := fun ticks n =>
    (hc.go_safe ticks n).exists_ok fun _ ⟨_, block, hblock, hstray⟩ => hstray (honDisk block hblock)
  refine ⟨fun ticks n => ?_, fun ticks hfair => ?_⟩
  · rcases hok ticks n with ⟨disk, hgo, hgood⟩
    refine ⟨disk, hgo, hgood.schedule.nodup, hgood.lt_length, fun i hi hlength => ?_⟩
    rw [mul_comm] at hlength ⊢
    exact hgood.schedule.mem_take hc.pos hgood.lt_length hi hlength
  · choose run hrun hgood using hok ticks
    have hstep : ∀ n, (run (n + 1)).Finished c w ∨ (run (n + 1)).rank c < (run n).rank c ∨
        run (n + 1) = run n ∧ ¬ (ticks (n + 1)).ends (run n).state := by
      intro n
      have hnext := hrun (n + 1)
      rw [Config.go, hrun n, ok_bind] at hnext
      rcases hgood n with ⟨i, hbusy⟩ | hfinished
      · rw [hbusy.running, if_neg Bool.false_ne_true] at hnext
        rcases (hbusy.animate_safe hc _).of_eq_ok hnext with ⟨-, hsame | hless⟩ | hfinished
        · exact .inr (.inr hsame)
        · exact .inr (.inl hless)
        · exact .inl hfinished
      · rw [hfinished.isDone, if_pos rfl] at hnext
        exact .inl (Except.ok.inj hnext ▸ hfinished)
    rcases Loop.ends_of_fair hfair hstep 0 with ⟨n, hfinished⟩
    exact ⟨n, run n, hrun n, hfinished.isDone, hfinished.perm hsome⟩

/-- Late requests do not come when there is nothing to do at first. -/
theorem go_of_no_requests (hrequests : c.requests = []) (ticks : ℕ → Tick) (n : ℕ) :
    ∃ disk, c.go ticks n = .ok disk ∧ disk.isDone ∧ disk.served = [] := by
  induction n with
  | zero =>
      rw [Config.go, Disk.getNextIo, Config.start, hrequests]
      exact ⟨_, rfl, rfl, rfl⟩
  | succ n ih =>
      rcases ih with ⟨disk, hgo, hdone, hserved⟩
      rw [Config.go, hgo, ok_bind, if_pos hdone]
      exact ⟨disk, rfl, hdone, hserved⟩

/-- A tick in which everything comes to its end. -/
def Tick.all : Tick := ⟨true, true, true, fun _ => 0⟩

theorem fair_all : Fair fun _ => Tick.all := fun state n =>
  ⟨n + 1, Nat.lt_succ_self n, by cases state <;> rfl⟩

theorem Config.BoundedFair.late_eq_nil (h : c.BoundedFair w) (hrequests : c.requests = []) :
    c.lateRequests = [] := by
  rcases h.served _ fair_all with ⟨n, disk, hgo, -, hperm⟩
  rcases go_of_no_requests hrequests (fun _ => Tick.all) n with ⟨disk', hgo', -, hserved⟩
  rw [hgo] at hgo'
  cases hgo'
  have hlength := hperm.length_eq
  rw [hserved, List.length_range, Config.blocks, List.length_append] at hlength
  exact List.length_eq_zero_iff.mp (Nat.eq_zero_of_add_eq_zero_left hlength.symm)

theorem Config.BoundedFair.onDisk (h : c.BoundedFair w) (hc : c.Windowed w) :
    ∀ block ∈ c.blocks, c.layout.OnDisk block := by
  intro block hblock
  rcases h.served _ fair_all with ⟨n, disk, hgo, -, hperm⟩
  have hgood := (hc.go_safe _ n).of_eq_ok hgo
  rcases List.mem_iff_getElem?.mp hblock with ⟨i, hi⟩
  have hserved : i ∈ disk.served :=
    hperm.mem_iff.mpr (List.mem_range.mpr (List.getElem?_eq_some_iff.mp hi).1)
  rcases hgood.onDisk i hserved with ⟨block', hblock', honDisk⟩
  cases hi.symm.trans hblock'
  exact honDisk

variable {zoning : List ℤ} {skew : ℤ}

theorem windowed_of_layout (hinit : initBlockLayout zoning skew = .ok c.layout)
    (hpolicy : c.policy = .bsatf) (hwindow : c.window = w) (hw : 0 < w) : c.Windowed w where
  layout := (initBlockLayout_safe zoning skew).of_eq_ok hinit
  policy := hpolicy
  window := hwindow
  pos := hw

/-- The requests are served in time, whatever `DoSATF` chooses, unless one is for a block that is
not on the disk or all of them come late. -/
theorem boundedFair_iff (hinit : initBlockLayout zoning skew = .ok c.layout)
    (hpolicy : c.policy = .bsatf) (hwindow : c.window = w) (hw : 0 < w) :
    c.BoundedFair w ↔ (c.requests = [] → c.lateRequests = []) ∧
      ∀ block ∈ c.requests ++ c.lateRequests, (c.layout.blockToTrackMap block).isSome := by
  have hc := windowed_of_layout hinit hpolicy hwindow hw
  refine ⟨fun h => ⟨h.late_eq_nil, h.onDisk hc⟩, fun h => ?_⟩
  exact hc.boundedFair h.1 h.2

theorem exists_default_layout : ∃ layout, ∃ blocks : ℕ,
    initBlockLayout [30, 30, 30] 0 = .ok layout ∧ layout.Consistent 3 blocks ∧ 1 < blocks := by
  have hzone : (2 : ℤ) ≤ 30 := by decide
  rcases initBlockLayout_spec hzone hzone hzone 0 with
    ⟨layout, first, last, blocks, hinit, hlayout, -, -, hfirst, hle, hlast⟩
  exact ⟨layout, blocks, hinit, hlayout, by omega⟩

/-- A request at the start and one that comes late. -/
theorem boundedFair_iff_two_requests : ∃ layout, initBlockLayout [30, 30, 30] 0 = .ok layout ∧
    (⟨layout, .bsatf, 2, [0], [1]⟩ : Config).BoundedFair 2 := by
  rcases exists_default_layout with ⟨layout, blocks, hinit, hlayout, hblocks⟩
  refine ⟨layout, hinit, (boundedFair_iff hinit rfl rfl (by decide)).mpr ⟨by simp, ?_⟩⟩
  intro block hblock
  rw [hlayout.isSome_iff]
  rcases List.mem_cons.mp hblock with rfl | hblock
  · omega
  · rw [List.mem_singleton.mp hblock]
    omega

/-- With no requests but a late one, the run is over before the late one comes. -/
theorem not_boundedFair_only_late : ¬ ∀ (zoning : List ℤ) (skew : ℤ) (c : Config) (w : ℕ),
    initBlockLayout zoning skew = .ok c.layout → c.policy = .bsatf → c.window = w → 0 < w →
      c.BoundedFair w := by
  intro h
  rcases exists_default_layout with ⟨layout, blocks, hinit, -⟩
  have hfair := h [30, 30, 30] 0 ⟨layout, .bsatf, 1, [], [0]⟩ 1 hinit rfl rfl Nat.one_pos
  cases hfair.late_eq_nil rfl

end OsLabs.FileDisks
