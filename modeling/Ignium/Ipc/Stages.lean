import Ignium.Ipc.World

/-!
# The stages of a call

The invariant of the interleaved calls. A thread is outside a call, has resolved its capability,
waits in a queue, was paired by a partner that still has to wake it, was woken, or is itself about
to wake a partner; `Stage` names these places, and `Tracks` ties them to the phases, to the thread
control blocks, to the queues and to the ghosts. `Tracks.update` says what a step has to show for
the threads that it moves. One thread moves by itself (`Tracks.move`) or into a queue
(`Tracks.park`), and two threads move together when they are paired (`Tracks.pair`) and when one
wakes the other (`Tracks.wake`).
-/

namespace Ignium.Ipc

open Kernel Sched
open Function (update_self update_of_ne)

/-- Where a thread is with respect to its call. -/
inductive Stage where
  | outside
  | resolved (call : Call)
  | waking (call : Call) (target : Nat)
  | waiting (call : Call)
  | paired (call : Call) (waker : Nat)
  | woken (call : Call)

/-- The call a thread is in. -/
def Stage.call : Stage → Option Call
  | .outside => none
  | .resolved c => some c
  | .waking c _ => some c
  | .waiting c => some c
  | .paired c _ => some c
  | .woken c => some c

/-- The call was handed over: it is a `send` with a partner, or a `recv` that is to get `msg`. -/
def Serves (handed : List (Call × Call)) (c : Call) (msg : Option Message) : Prop :=
  (∃ r, (c, r) ∈ handed) ∨
    ∃ s dst words, (s, c) ∈ handed ∧ s.req = .send dst words ∧ msg = some words

/-- The call was not handed over. -/
def Unserved (handed : List (Call × Call)) (c : Call) : Prop :=
  ∀ h ∈ handed, h.1.id ≠ c.id ∧ h.2.id ≠ c.id

/-- The thread is queued for a call: about to block, or blocked. -/
def Queued (task : Task) (c : Call) : Prop :=
  (task.phase = .parked c ∧ task.thread.state = .running) ∨
    (task.phase = .asleep c ∧ task.thread.state = .blocked)

/-- What a stage means for the thread. -/
def Fits (w : World) (tid : Nat) : Stage → Prop
  | .outside => (w.tasks tid).phase = .user ∧
      ((w.tasks tid).thread.state = .ready ∨ (w.tasks tid).thread.state = .running) ∧
      (w.tasks tid).thread.ipcWake = none
  | .resolved c => (w.tasks tid).phase = .resolved c ∧ (w.tasks tid).thread.state = .running ∧
      (w.tasks tid).thread.ipcWake = none ∧ Unserved w.handed c
  | .waking c target => (w.tasks tid).thread.state = .running ∧
      (w.tasks tid).thread.ipcWake = none ∧
      ∃ msg reply, (w.tasks tid).phase = .waking c target msg reply ∧ Serves w.handed c reply
  | .waiting c => Queued (w.tasks tid) c ∧ (w.tasks tid).thread.ipcWake = none ∧
      Unserved w.handed c
  | .paired c waker => Queued (w.tasks tid) c ∧ (w.tasks tid).thread.ipcWake = none ∧
      ∃ c' msg reply, (w.tasks waker).phase = .waking c' tid msg reply ∧ Serves w.handed c msg
  | .woken c =>
    ((w.tasks tid).phase = .parked c ∧ (w.tasks tid).thread.state = .running ∧
      ∃ words, (w.tasks tid).thread.ipcWake = some (.msg words) ∧
        Serves w.handed c (some words)) ∨
    ((w.tasks tid).phase = .asleep c ∧ (w.tasks tid).thread.state = .ready ∧
      (w.tasks tid).thread.ipcWake = none ∧ (w.tasks tid).thread.frame.a0 = 0 ∧
      Serves w.handed c (some (w.tasks tid).thread.frame.args))

/-- A call of the past or the present of its thread. -/
def Made (w : World) (c : Call) : Prop :=
  c.id.number < (w.tasks c.id.tid).calls ∧ c.pid = (w.tasks c.id.tid).thread.proc

/-- A handing over is right: a message goes to the process that the sender's capability named,
and to a `recv` that accepts the sender. -/
def ValidPair (w : World) (h : Call × Call) : Prop :=
  Made w h.1 ∧ Made w h.2 ∧ ∃ dst msg src, h.1.req = .send dst msg ∧ h.2.req = .recv src ∧
    h.2.pid = dst ∧ (src = h.1.pid ∨ src = ipcAcceptAny)

/-- What a call came back with is right: a call succeeds exactly if it was handed over, and a
`recv` then has the message of the `send` it was paired with. -/
def ValidReturn (handed : List (Call × Call)) (ret : Returned) : Prop :=
  (ret.sent = true → (ret.frame.a0 = 0 ↔ ∃ h ∈ handed, h.1.id = ret.id)) ∧
  (ret.sent = false → (ret.frame.a0 = 0 ↔ ∃ h ∈ handed, h.2.id = ret.id) ∧
    ∀ h ∈ handed, h.2.id = ret.id → ∃ dst, h.1.req = .send dst ret.frame.args)

/-- The invariant: `stage` says where every thread is. -/
structure Tracks (w : World) (stage : Nat → Stage) : Prop where
  fits : ∀ tid, Fits w tid (stage tid)
  named : ∀ tid c, (stage tid).call = some c → c.id.tid = tid ∧
    c.id.number + 1 = (w.tasks tid).calls ∧ c.pid = (w.tasks tid).thread.proc
  wakers : ∀ tid c target, stage tid = .waking c target → ∃ c', stage target = .paired c' tid
  sends : ∀ s, s ∈ w.ipc.sends ↔ ∃ c, stage s.senderTid = .waiting c ∧ s.senderPid = c.pid ∧
    c.req = .send s.dstPid s.msg
  recvs : ∀ r, r ∈ w.ipc.recvs ↔ ∃ c, stage r.recverTid = .waiting c ∧ r.recverPid = c.pid ∧
    c.req = .recv r.srcPid
  sends_nodup : (w.ipc.sends.map PendingSend.senderTid).Nodup
  recvs_nodup : (w.ipc.recvs.map PendingRecv.recverTid).Nodup
  pairs : ∀ h ∈ w.handed, ValidPair w h
  sent_once : (w.handed.map fun h => h.1.id).Nodup
  received_once : (w.handed.map fun h => h.2.id).Nodup
  returns : ∀ ret ∈ w.returned, ValidReturn w.handed ret
  closed : ∀ ret ∈ w.returned, ret.id.number < (w.tasks ret.id.tid).calls ∧
    ∀ c, (stage ret.id.tid).call = some c → c.id ≠ ret.id

/-! ## Frames -/

/-- In a queue without two entries of one thread, taking an entry out takes exactly the entries of
its thread out. -/
theorem mem_taken {α : Type} {key : α → Nat} {front back : List α} {x y : α}
    (hnodup : ((front ++ x :: back).map key).Nodup) :
    y ∈ front ++ back ↔ key y ≠ key x ∧ y ∈ front ++ x :: back := by
  simp only [List.map_append, List.map_cons, List.nodup_append, List.nodup_cons, List.mem_cons,
    List.mem_map] at hnodup
  obtain ⟨-, ⟨hback, -⟩, hfront⟩ := hnodup
  simp only [List.mem_append, List.mem_cons]
  constructor
  · intro hy
    rcases hy with hy | hy
    · exact ⟨hfront _ ⟨y, hy, rfl⟩ _ (.inl rfl), .inl hy⟩
    · exact ⟨fun heq => hback ⟨y, hy, heq⟩, .inr (.inr hy)⟩
  · intro hex
    obtain ⟨hne, hy⟩ := hex
    rcases hy with hy | rfl | hy
    · exact .inl hy
    · exact absurd rfl hne
    · exact .inr hy

section Frames

variable {w w' : World} {stage : Nat → Stage} {tid : Nat} {c : Call} {st : Stage}
  {handed : List (Call × Call)} {msg : Option Message}

theorem Serves.mono {more : List (Call × Call)} (h : Serves handed c msg) :
    Serves (handed ++ more) c msg := by
  rcases h with ⟨r, hr⟩ | ⟨s, dst, words, hs, hreq, hmsg⟩
  · exact .inl ⟨r, List.mem_append_left _ hr⟩
  · exact .inr ⟨s, dst, words, List.mem_append_left _ hs, hreq, hmsg⟩

theorem Serves.getD (h : Serves handed c msg) (words : Message) :
    Serves handed c (some (msg.getD words)) := by
  rcases h with hsend | ⟨s, dst, m, hs, hreq, rfl⟩
  · exact .inl hsend
  · exact .inr ⟨s, dst, m, hs, hreq, rfl⟩

theorem Unserved.append {more : List (Call × Call)} (h : Unserved handed c)
    (hmore : ∀ p ∈ more, p.1.id ≠ c.id ∧ p.2.id ≠ c.id) : Unserved (handed ++ more) c := by
  intro p hp
  rcases List.mem_append.mp hp with hp | hp
  · exact h p hp
  · exact hmore p hp

/-- A thread that does not move keeps its stage: its waker must not move either, and what is
newly handed over must not be its call. -/
theorem Fits.congr {more : List (Call × Call)} (h : Fits w tid st)
    (htask : w'.tasks tid = w.tasks tid)
    (hwaker : ∀ c x, st = .paired c x → (w'.tasks x).phase = (w.tasks x).phase)
    (hhanded : w'.handed = w.handed ++ more)
    (hmore : ∀ c, st.call = some c → ∀ p ∈ more, p.1.id ≠ c.id ∧ p.2.id ≠ c.id) :
    Fits w' tid st := by
  cases st with
  | outside =>
    rw [Fits, htask]
    exact h
  | resolved c =>
    obtain ⟨hphase, hstate, hwake, hunserved⟩ := h
    rw [Fits, htask, hhanded]
    exact ⟨hphase, hstate, hwake, hunserved.append (hmore c rfl)⟩
  | waking c target =>
    obtain ⟨hstate, hwake, m, reply, hphase, hserves⟩ := h
    rw [Fits, htask, hhanded]
    exact ⟨hstate, hwake, m, reply, hphase, hserves.mono⟩
  | waiting c =>
    obtain ⟨hqueued, hwake, hunserved⟩ := h
    rw [Fits, htask, hhanded]
    exact ⟨hqueued, hwake, hunserved.append (hmore c rfl)⟩
  | paired c x =>
    obtain ⟨hqueued, hwake, c', m, reply, hphase, hserves⟩ := h
    rw [Fits, htask, hhanded, hwaker c x rfl]
    exact ⟨hqueued, hwake, c', m, reply, hphase, hserves.mono⟩
  | woken c =>
    rw [Fits, htask, hhanded]
    rcases h with ⟨hphase, hstate, words, hwake, hserves⟩ | ⟨hphase, hstate, hwake, ha0, hserves⟩
    · exact .inl ⟨hphase, hstate, words, hwake, hserves.mono⟩
    · exact .inr ⟨hphase, hstate, hwake, ha0, hserves.mono⟩

/-- Both ways to wake a queued thread leave the message where the thread will find it. -/
theorem Fits.woken (hqueued : Queued (w.tasks tid) c)
    (htask : w'.tasks tid =
      { w.tasks tid with thread := ipcWakeWithMsg (w.tasks tid).thread msg })
    (hserves : Serves w'.handed c msg) : Fits w' tid (.woken c) := by
  rw [Fits, htask]
  rcases hqueued with ⟨hphase, hstate⟩ | ⟨hphase, hstate⟩
  · rw [ipcWakeWithMsg, if_pos (by simp [hstate])]
    exact .inl ⟨hphase, hstate, _, rfl, hserves.getD _⟩
  · rw [ipcWakeWithMsg, if_neg (by simp [hstate])]
    exact .inr ⟨hphase, rfl, rfl, rfl, hserves.getD _⟩

theorem ValidReturn.append {more : List (Call × Call)} {ret : Returned}
    (h : ValidReturn handed ret) (hmore : ∀ p ∈ more, p.1.id ≠ ret.id ∧ p.2.id ≠ ret.id) :
    ValidReturn (handed ++ more) ret := by
  have hfst : (∃ p ∈ handed ++ more, p.1.id = ret.id) ↔ ∃ p ∈ handed, p.1.id = ret.id := by
    simp only [List.mem_append, or_and_right, exists_or, or_iff_left_iff_imp]
    intro hex
    obtain ⟨p, hp, hid⟩ := hex
    exact absurd hid (hmore p hp).1
  have hsnd : (∃ p ∈ handed ++ more, p.2.id = ret.id) ↔ ∃ p ∈ handed, p.2.id = ret.id := by
    simp only [List.mem_append, or_and_right, exists_or, or_iff_left_iff_imp]
    intro hex
    obtain ⟨p, hp, hid⟩ := hex
    exact absurd hid (hmore p hp).2
  refine ⟨fun hsent => (h.1 hsent).trans hfst.symm,
    fun hrecv => ⟨(h.2 hrecv).1.trans hsnd.symm, fun p hp hid => ?_⟩⟩
  rcases List.mem_append.mp hp with hp | hp
  · exact (h.2 hrecv).2 p hp hid
  · exact absurd hid (hmore p hp).2

/-- Calls stay made as long as threads stay in their process and only make more calls. -/
theorem Made.mono (h : Made w c)
    (htasks : ∀ x, (w'.tasks x).thread.proc = (w.tasks x).thread.proc ∧
      (w.tasks x).calls ≤ (w'.tasks x).calls) : Made w' c := by
  obtain ⟨hproc, hcalls⟩ := htasks c.id.tid
  exact ⟨Nat.lt_of_lt_of_le h.1 hcalls, h.2.trans hproc.symm⟩

theorem ValidPair.mono {p : Call × Call} (h : ValidPair w p)
    (htasks : ∀ x, (w'.tasks x).thread.proc = (w.tasks x).thread.proc ∧
      (w.tasks x).calls ≤ (w'.tasks x).calls) : ValidPair w' p :=
  ⟨h.1.mono htasks, h.2.1.mono htasks, h.2.2⟩

namespace Tracks

section

variable (h : Tracks w stage)
include h

/-- The phase of a waker determines its stage. -/
theorem stage_of_waking {x target : Nat} {reply : Option Message}
    (hphase : (w.tasks x).phase = .waking c target msg reply) : stage x = .waking c target := by
  have hfits := h.fits x
  cases hst : stage x with
  | waking c' target' =>
    rw [hst] at hfits
    obtain ⟨-, -, m, reply', hphase', -⟩ := hfits
    rw [hphase] at hphase'
    obtain ⟨rfl, rfl, -, -⟩ := Phase.waking.inj hphase'
    rfl
  | _ =>
    rw [hst] at hfits
    simp [Fits, Queued, hphase] at hfits

/-- A thread that is not about to wake anyone is not the waker of a pair. -/
theorem waker_ne {t x : Nat} (hst : stage t = .paired c x)
    (hidle : ∀ c' y, stage tid ≠ .waking c' y) : x ≠ tid := by
  intro heq
  have hfits := h.fits t
  rw [hst] at hfits
  obtain ⟨-, -, c', m, reply, hphase, -⟩ := hfits
  rw [heq] at hphase
  exact hidle c' t (h.stage_of_waking hphase)

/-- What a step has to show for the threads that it moves. All others keep their stage. -/
theorem update {stage' : Nat → Stage} (moved : Nat → Prop)
    (more : Option (Call × Call)) (rets : List Returned)
    (hframe : ∀ x, ¬ moved x → w'.tasks x = w.tasks x ∧ stage' x = stage x)
    (htasks : ∀ x, (w'.tasks x).thread.proc = (w.tasks x).thread.proc ∧
      (w.tasks x).calls ≤ (w'.tasks x).calls)
    (hfits : ∀ x, moved x → Fits w' x (stage' x))
    (hnamed : ∀ x, moved x → ∀ c, (stage' x).call = some c → c.id.tid = x ∧
      c.id.number + 1 = (w'.tasks x).calls ∧ c.pid = (w'.tasks x).thread.proc)
    (hpaired : ∀ x, ¬ moved x → ∀ c y, stage x = .paired c y → ¬ moved y)
    (hwakers : ∀ x c y, stage' x = .waking c y → ∃ c', stage' y = .paired c' x)
    (hsends : ∀ s, s ∈ w'.ipc.sends ↔ ∃ c, stage' s.senderTid = .waiting c ∧
      s.senderPid = c.pid ∧ c.req = .send s.dstPid s.msg)
    (hrecvs : ∀ r, r ∈ w'.ipc.recvs ↔ ∃ c, stage' r.recverTid = .waiting c ∧
      r.recverPid = c.pid ∧ c.req = .recv r.srcPid)
    (hnodup : (w'.ipc.sends.map PendingSend.senderTid).Nodup ∧
      (w'.ipc.recvs.map PendingRecv.recverTid).Nodup)
    (hhanded : w'.handed = w.handed ++ more.toList)
    (hmore : ∀ p ∈ more, ValidPair w' p ∧ Unserved w.handed p.1 ∧ Unserved w.handed p.2 ∧
      moved p.1.id.tid ∧ moved p.2.id.tid ∧ (stage p.1.id.tid).call = some p.1 ∧
      (stage p.2.id.tid).call = some p.2)
    (hreturned : w'.returned = w.returned ++ rets)
    (hrets : ∀ ret ∈ rets, ValidReturn w'.handed ret ∧ moved ret.id.tid ∧
      ret.id.number < (w'.tasks ret.id.tid).calls)
    (hclosed : ∀ ret ∈ w'.returned, moved ret.id.tid →
      ∀ c, (stage' ret.id.tid).call = some c → c.id ≠ ret.id) :
    Tracks w' stage' := by
  refine {
    fits := fun x => ?_
    named := fun x c hc => ?_
    wakers := hwakers
    sends := hsends
    recvs := hrecvs
    sends_nodup := hnodup.1
    recvs_nodup := hnodup.2
    pairs := fun p hp => ?_
    sent_once := ?_
    received_once := ?_
    returns := fun ret hret => ?_
    closed := fun ret hret => ⟨?_, fun c hc => ?_⟩ }
  · by_cases hx : moved x
    · exact hfits x hx
    · rw [(hframe x hx).2]
      refine (h.fits x).congr (hframe x hx).1 (fun c y hst => ?_) hhanded fun c hc p hp => ?_
      · rw [(hframe y (hpaired x hx c y hst)).1]
      · obtain ⟨-, -, -, hfst, hsnd, -⟩ := hmore p (Option.mem_toList.mp hp)
        have htid := (h.named x c hc).1
        exact ⟨fun heq => hx (htid ▸ heq ▸ hfst), fun heq => hx (htid ▸ heq ▸ hsnd)⟩
  · by_cases hx : moved x
    · exact hnamed x hx c hc
    · rw [(hframe x hx).1]
      exact h.named x c ((hframe x hx).2 ▸ hc)
  · rw [hhanded, List.mem_append, Option.mem_toList] at hp
    rcases hp with hp | hp
    · exact (h.pairs p hp).mono htasks
    · exact (hmore p hp).1
  · rw [hhanded, List.map_append, List.nodup_append]
    refine ⟨h.sent_once, by cases more <;> simp, fun a ha b hb => ?_⟩
    obtain ⟨p, hp, rfl⟩ := List.mem_map.mp ha
    obtain ⟨q, hq, rfl⟩ := List.mem_map.mp hb
    exact ((hmore q (Option.mem_toList.mp hq)).2.1 p hp).1
  · rw [hhanded, List.map_append, List.nodup_append]
    refine ⟨h.received_once, by cases more <;> simp, fun a ha b hb => ?_⟩
    obtain ⟨p, hp, rfl⟩ := List.mem_map.mp ha
    obtain ⟨q, hq, rfl⟩ := List.mem_map.mp hb
    exact ((hmore q (Option.mem_toList.mp hq)).2.2.1 p hp).2
  · rw [hreturned] at hret
    rcases List.mem_append.mp hret with hret | hret
    · rw [hhanded]
      refine (h.returns ret hret).append fun p hp => ?_
      obtain ⟨-, -, -, -, -, hfst, hsnd⟩ := hmore p (Option.mem_toList.mp hp)
      exact ⟨fun heq => (h.closed ret hret).2 p.1 (heq ▸ hfst) heq,
        fun heq => (h.closed ret hret).2 p.2 (heq ▸ hsnd) heq⟩
    · exact (hrets ret hret).1
  · rw [hreturned] at hret
    rcases List.mem_append.mp hret with hret | hret
    · exact Nat.lt_of_lt_of_le (h.closed ret hret).1 (htasks ret.id.tid).2
    · exact (hrets ret hret).2.2
  · by_cases hx : moved ret.id.tid
    · exact hclosed ret hret hx c hc
    · rw [hreturned] at hret
      rcases List.mem_append.mp hret with hret | hret
      · exact (h.closed ret hret).2 c ((hframe _ hx).2 ▸ hc)
      · exact absurd (hrets ret hret).2.1 hx

/-- One thread moves without touching the queues: it enters a call, blocks, is preempted or
resumed, or comes back. -/
theorem move {task : Task} (st : Stage) (rets : List Returned)
    (hw : w'.tasks = Function.update w.tasks tid task) (hipc : w'.ipc = w.ipc)
    (hhanded : w'.handed = w.handed) (hreturned : w'.returned = w.returned ++ rets)
    (hproc : task.thread.proc = (w.tasks tid).thread.proc)
    (hcalls : (w.tasks tid).calls ≤ task.calls)
    (hold : ∀ c x, stage tid ≠ .waking c x) (hnew : ∀ c x, st ≠ .waking c x)
    (hpaired : ∀ c x, stage tid = .paired c x → st = .paired c x)
    (hwaiting : ∀ c, stage tid = .waiting c ↔ st = .waiting c) (hfits : Fits w' tid st)
    (hnamed : ∀ c, st.call = some c → c.id.tid = tid ∧ c.id.number + 1 = task.calls ∧
      c.pid = task.thread.proc)
    (hrets : ∀ ret ∈ rets, ValidReturn w.handed ret ∧ ret.id.tid = tid ∧
      ret.id.number < task.calls)
    (hclosed : ∀ ret ∈ w.returned ++ rets, ret.id.tid = tid →
      ∀ c, st.call = some c → c.id ≠ ret.id) :
    Tracks w' (Function.update stage tid st) := by
  have hself : w'.tasks tid = task := by rw [hw, update_self]
  have hother : ∀ x, x ≠ tid → w'.tasks x = w.tasks x := by
    intro x hx
    rw [hw, update_of_ne hx]
  have hupdate : ∀ x, x ≠ tid → Function.update stage tid st x = stage x :=
    fun x hx => update_of_ne hx _ _
  -- the queues only see which threads wait, and that does not change
  have hwaits : ∀ x c, Function.update stage tid st x = .waiting c ↔ stage x = .waiting c := by
    intro x c
    by_cases hx : x = tid
    · rw [hx, update_self]
      exact (hwaiting c).symm
    · rw [hupdate x hx]
  refine h.update (· = tid) none rets (fun x hx => ⟨hother x hx, hupdate x hx⟩) (fun x => ?_)
    (fun x hx => ?_) (fun x hx c hc => ?_) (fun x hx c y hst => h.waker_ne hst hold)
    (fun x c y hst => ?_) (fun s => ?_) (fun r => ?_)
    (hipc ▸ ⟨h.sends_nodup, h.recvs_nodup⟩) (by rw [hhanded]; exact (List.append_nil _).symm)
    (by simp) hreturned (fun ret hret => ?_) (fun ret hret hx c hc => ?_)
  · by_cases hx : x = tid
    · subst hx
      rw [hself]
      exact ⟨hproc, hcalls⟩
    · rw [hother x hx]
      exact ⟨rfl, le_rfl⟩
  · subst hx
    rwa [update_self]
  · subst hx
    rw [update_self] at hc
    rw [hself]
    exact hnamed c hc
  · have hx : x ≠ tid := by
      intro heq
      rw [heq, update_self] at hst
      exact hnew c y hst
    obtain ⟨c', hpair⟩ := h.wakers x c y (hupdate x hx ▸ hst)
    refine ⟨c', ?_⟩
    by_cases hy : y = tid
    · subst hy
      rw [update_self]
      exact hpaired c' x hpair
    · rwa [hupdate y hy]
  · simp only [hwaits, hipc]
    exact h.sends s
  · simp only [hwaits, hipc]
    exact h.recvs r
  · obtain ⟨hvalid, htid, hnumber⟩ := hrets ret hret
    rw [htid, hself, hhanded]
    exact ⟨hvalid, rfl, hnumber⟩
  · rw [hx, update_self] at hc
    exact hclosed ret (hreturned ▸ hret) hx c hc

/-- A thread that finds no partner waits: the queues grow by the entry of its call. -/
theorem park (hw : w'.tasks = Function.update w.tasks tid { w.tasks tid with phase := .parked c })
    (hhanded : w'.handed = w.handed) (hreturned : w'.returned = w.returned)
    (hst : stage tid = .resolved c)
    (hsends : ∀ s, s ∈ w'.ipc.sends ↔ s ∈ w.ipc.sends ∨
      (s.senderTid = tid ∧ s.senderPid = c.pid ∧ c.req = .send s.dstPid s.msg))
    (hrecvs : ∀ r, r ∈ w'.ipc.recvs ↔ r ∈ w.ipc.recvs ∨
      (r.recverTid = tid ∧ r.recverPid = c.pid ∧ c.req = .recv r.srcPid))
    (hnodup : (w'.ipc.sends.map PendingSend.senderTid).Nodup ∧
      (w'.ipc.recvs.map PendingRecv.recverTid).Nodup) :
    Tracks w' (Function.update stage tid (.waiting c)) := by
  have hself : w'.tasks tid = { w.tasks tid with phase := .parked c } := by
    rw [hw, update_self]
  have hother : ∀ x, x ≠ tid → w'.tasks x = w.tasks x := by
    intro x hx
    rw [hw, update_of_ne hx]
  have hupdate : ∀ x, x ≠ tid → Function.update stage tid (.waiting c) x = stage x :=
    fun x hx => update_of_ne hx _ _
  have hwaits : ∀ x c', Function.update stage tid (.waiting c) x = .waiting c' ↔
      stage x = .waiting c' ∨ (x = tid ∧ c = c') := by
    intro x c'
    by_cases hx : x = tid
    · simp [hx, hst]
    · simp [hx]
  have hfits := h.fits tid
  rw [hst] at hfits
  obtain ⟨-, hstate, hwake, hunserved⟩ := hfits
  have hidle : ∀ c' y, stage tid ≠ .waking c' y := by simp [hst]
  have hcall : (stage tid).call = some c := by rw [hst]; rfl
  refine h.update (· = tid) none [] (fun x hx => ⟨hother x hx, hupdate x hx⟩) (fun x => ?_)
    (fun x hx => ?_) (fun x hx c' hc => ?_) (fun x hx c' y hpair => h.waker_ne hpair hidle)
    (fun x c' y hwaking => ?_) (fun s => ?_) (fun r => ?_) hnodup
    (by rw [hhanded]; exact (List.append_nil _).symm) (by simp)
    (by rw [hreturned, List.append_nil]) (by simp) (fun ret hret hx c' hc => ?_)
  · by_cases hx : x = tid
    · subst hx
      rw [hself]
      exact ⟨rfl, le_rfl⟩
    · rw [hother x hx]
      exact ⟨rfl, le_rfl⟩
  · subst hx
    rw [update_self, Fits, hself, hhanded]
    exact ⟨.inl ⟨rfl, hstate⟩, hwake, hunserved⟩
  · subst hx
    rw [update_self] at hc
    cases hc
    rw [hself]
    exact h.named x c hcall
  · have hx : x ≠ tid := by
      intro heq
      rw [heq, update_self] at hwaking
      cases hwaking
    obtain ⟨c'', hpair⟩ := h.wakers x c' y (hupdate x hx ▸ hwaking)
    have hy : y ≠ tid := by
      intro heq
      rw [heq, hst] at hpair
      cases hpair
    exact ⟨c'', by rwa [hupdate y hy]⟩
  · simp only [hsends, h.sends, hwaits, or_and_right, exists_or, and_assoc, exists_and_left]
    simp
  · simp only [hrecvs, h.recvs, hwaits, or_and_right, exists_or, and_assoc, exists_and_left]
    simp
  · rw [hx, update_self] at hc
    exact (h.closed ret (hreturned ▸ hret)).2 c' (by rw [hx, hcall]; exact hc)

/-- A thread finds the waiting thread `x`: the message is handed over, the entry of `x` leaves its
queue, and the thread has `x` to wake. -/
theorem pair {x : Nat} {peer : Call} {p : Call × Call} {reply : Option Message}
    (hw : w'.tasks = Function.update w.tasks tid
      { w.tasks tid with phase := .waking c x msg reply })
    (hhanded : w'.handed = w.handed ++ [p]) (hreturned : w'.returned = w.returned)
    (hst : stage tid = .resolved c) (hpeer : stage x = .waiting peer)
    (hp : p = (c, peer) ∨ p = (peer, c)) (hvalid : ValidPair w p)
    (hreply : Serves [p] c reply) (hmsg : Serves [p] peer msg)
    (hsends : ∀ s, s ∈ w'.ipc.sends ↔ s.senderTid ≠ x ∧ s ∈ w.ipc.sends)
    (hrecvs : ∀ r, r ∈ w'.ipc.recvs ↔ r.recverTid ≠ x ∧ r ∈ w.ipc.recvs)
    (hnodup : (w'.ipc.sends.map PendingSend.senderTid).Nodup ∧
      (w'.ipc.recvs.map PendingRecv.recverTid).Nodup) :
    Tracks w' (Function.update (Function.update stage x (.paired peer tid)) tid
      (.waking c x)) := by
  have hne : x ≠ tid := by
    intro heq
    rw [heq, hst] at hpeer
    cases hpeer
  have hself : w'.tasks tid = { w.tasks tid with phase := .waking c x msg reply } := by
    rw [hw, update_self]
  have hother : ∀ y, y ≠ tid → w'.tasks y = w.tasks y := by
    intro y hy
    rw [hw, update_of_ne hy]
  have hstage : Function.update (Function.update stage x (.paired peer tid)) tid (.waking c x) x =
      .paired peer tid := by rw [update_of_ne hne, update_self]
  have hupdate : ∀ y, ¬ (y = tid ∨ y = x) →
      Function.update (Function.update stage x (.paired peer tid)) tid (.waking c x) y =
        stage y := by
    intro y hy
    rw [update_of_ne fun heq => hy (.inl heq),
      update_of_ne fun heq => hy (.inr heq)]
  have hwaits : ∀ y c', Function.update (Function.update stage x (.paired peer tid)) tid
      (.waking c x) y = .waiting c' ↔ y ≠ x ∧ stage y = .waiting c' := by
    intro y c'
    by_cases hy : y = tid
    · simp [hy, hst]
    · by_cases hyx : y = x
      · simp [hyx, hne]
      · simp [hy, hyx]
  have hfits := h.fits tid
  rw [hst] at hfits
  obtain ⟨-, hstate, hwake, hunserved⟩ := hfits
  have hfitsPeer := h.fits x
  rw [hpeer] at hfitsPeer
  obtain ⟨hqueued, hwakePeer, hunservedPeer⟩ := hfitsPeer
  have hcall : (stage tid).call = some c := by rw [hst]; rfl
  have hcallPeer : (stage x).call = some peer := by rw [hpeer]; rfl
  have hnamed := h.named tid c hcall
  have hnamedPeer := h.named x peer hcallPeer
  have hserves : ∀ c' m, Serves [p] c' m → Serves w'.handed c' m := by
    intro c' m hs
    rw [hhanded]
    rcases hs with ⟨r, hr⟩ | ⟨s, dst, words, hs, hrest⟩
    · exact .inl ⟨r, List.mem_append_right _ hr⟩
    · exact .inr ⟨s, dst, words, List.mem_append_right _ hs, hrest⟩
  have htasks : ∀ y, (w'.tasks y).thread.proc = (w.tasks y).thread.proc ∧
      (w.tasks y).calls ≤ (w'.tasks y).calls := by
    intro y
    by_cases hy : y = tid
    · subst hy
      rw [hself]
      exact ⟨rfl, le_rfl⟩
    · rw [hother y hy]
      exact ⟨rfl, le_rfl⟩
  refine h.update (fun y => y = tid ∨ y = x) (some p) []
    (fun y hy => ⟨hother y fun heq => hy (.inl heq), hupdate y hy⟩) htasks (fun y hy => ?_)
    (fun y hy c' hc => ?_) (fun y hy c' z hpair => ?_) (fun y c' z hwaking => ?_) (fun s => ?_)
    (fun r => ?_) hnodup hhanded (fun q hq => ?_) (by rw [hreturned, List.append_nil]) (by simp)
    (fun ret hret hy c' hc => ?_)
  · rcases hy with rfl | rfl
    · rw [update_self, Fits, hself]
      exact ⟨hstate, hwake, msg, reply, rfl, hserves c reply hreply⟩
    · rw [hstage, Fits, hother y hne, hself]
      exact ⟨hqueued, hwakePeer, c, msg, reply, rfl, hserves peer msg hmsg⟩
  · rcases hy with rfl | rfl
    · rw [update_self] at hc
      cases hc
      rw [hself]
      exact hnamed
    · rw [hstage] at hc
      cases hc
      rw [hother y hne]
      exact hnamedPeer
  · have hztid : z ≠ tid := h.waker_ne hpair (by simp [hst])
    have hzx : z ≠ x := h.waker_ne hpair (by simp [hpeer])
    simp [hztid, hzx]
  · by_cases hy : y = tid
    · subst hy
      rw [update_self] at hwaking
      obtain ⟨rfl, rfl⟩ := Stage.waking.inj hwaking
      exact ⟨peer, hstage⟩
    · have hyx : y ≠ x := by
        intro heq
        rw [heq, hstage] at hwaking
        cases hwaking
      rw [hupdate y (by simp [hy, hyx])] at hwaking
      obtain ⟨c'', hpair⟩ := h.wakers y c' z hwaking
      refine ⟨c'', ?_⟩
      rw [hupdate z, hpair]
      intro hz
      rcases hz with rfl | rfl
      · rw [hst] at hpair
        cases hpair
      · rw [hpeer] at hpair
        cases hpair
  · simp only [hsends, h.sends, hwaits, and_assoc, exists_and_left]
  · simp only [hrecvs, h.recvs, hwaits, and_assoc, exists_and_left]
  · cases hq
    have hvalid' := hvalid.mono htasks
    rcases hp with rfl | rfl
    · refine ⟨hvalid', hunserved, hunservedPeer, .inl hnamed.1, .inr hnamedPeer.1, ?_, ?_⟩
      · rw [hnamed.1, hcall]
      · rw [hnamedPeer.1, hcallPeer]
    · refine ⟨hvalid', hunservedPeer, hunserved, .inr hnamedPeer.1, .inl hnamed.1, ?_, ?_⟩
      · rw [hnamedPeer.1, hcallPeer]
      · rw [hnamed.1, hcall]
  · rw [hreturned] at hret
    rcases hy with hy | hy
    · rw [hy, update_self] at hc
      exact (h.closed ret hret).2 c' (by rw [hy, hcall]; exact hc)
    · rw [hy, hstage] at hc
      exact (h.closed ret hret).2 c' (by rw [hy, hcallPeer]; exact hc)

/-- A call that was handed over comes back rightly with `a0 = 0` and the message it is to get. -/
theorem validReturn {args : Message} {sepc : Nat}
    (hserves : Serves w.handed c msg) (hargs : ∀ words, msg = some words → args = words) :
    ValidReturn w.handed ⟨c.id, c.isSend, ⟨0, args, sepc⟩⟩ := by
  rcases hserves with ⟨r, hr⟩ | ⟨s, dst, words, hs, hreq, hmsg⟩
  · obtain ⟨-, -, dst, m, src, hsend, -⟩ := h.pairs _ hr
    have hsent : c.isSend = true := by rw [Call.isSend, hsend]
    exact ⟨fun _ => ⟨fun _ => ⟨_, hr, rfl⟩, fun _ => rfl⟩, fun hfalse => by simp [hsent] at hfalse⟩
  · obtain ⟨-, -, dst', m, src, -, hrecv, -⟩ := h.pairs _ hs
    have hsent : c.isSend = false := by rw [Call.isSend, hrecv]
    refine ⟨fun htrue => by simp [hsent] at htrue,
      fun _ => ⟨⟨fun _ => ⟨_, hs, rfl⟩, fun _ => rfl⟩, fun p hp hid => ⟨dst, ?_⟩⟩⟩
    rw [List.inj_on_of_nodup_map h.received_once hp hs hid, hargs words hmsg]
    exact hreq

/-- The thread that found a partner wakes it and returns. -/
theorem wake {x : Nat} {reply : Option Message} {sepc : Nat} {args : Message} (hphase : (w.tasks tid).phase = .waking c x msg reply)
    (hself : w'.tasks tid = { w.tasks tid with live := ⟨0, reply.getD args, sepc⟩, phase := .user })
    (hpeer : w'.tasks x = { w.tasks x with thread := ipcWakeWithMsg (w.tasks x).thread msg })
    (hother : ∀ y, ¬ (y = tid ∨ y = x) → w'.tasks y = w.tasks y)
    (hipc : w'.ipc = w.ipc) (hhanded : w'.handed = w.handed)
    (hreturned : w'.returned = w.returned ++
      [⟨c.id, c.isSend, ⟨0, reply.getD args, sepc⟩⟩]) :
    ∃ stage', Tracks w' stage' := by
  have hst := h.stage_of_waking hphase
  obtain ⟨peer, hpaired⟩ := h.wakers tid c x hst
  have hne : x ≠ tid := by
    intro heq
    rw [heq, hst] at hpaired
    cases hpaired
  have hfits := h.fits tid
  rw [hst] at hfits
  obtain ⟨hstate, hwake, m, r, hphase', hserves⟩ := hfits
  rw [hphase] at hphase'
  obtain ⟨-, -, rfl, rfl⟩ := Phase.waking.inj hphase'
  have hfitsPeer := h.fits x
  rw [hpaired] at hfitsPeer
  obtain ⟨hqueued, hwakePeer, c', m, r, hphase', hservesPeer⟩ := hfitsPeer
  rw [hphase] at hphase'
  obtain ⟨-, -, rfl, rfl⟩ := Phase.waking.inj hphase'
  have hcall : (stage tid).call = some c := by rw [hst]; rfl
  have hcallPeer : (stage x).call = some peer := by rw [hpaired]; rfl
  have hnamed := h.named tid c hcall
  have hproc : (ipcWakeWithMsg (w.tasks x).thread msg).proc = (w.tasks x).thread.proc := by
    rw [ipcWakeWithMsg]
    split <;> rfl
  have hstage : Function.update (Function.update stage x (.woken peer)) tid .outside x =
      .woken peer := by rw [update_of_ne hne, update_self]
  have hupdate : ∀ y, ¬ (y = tid ∨ y = x) →
      Function.update (Function.update stage x (.woken peer)) tid .outside y = stage y := by
    intro y hy
    rw [update_of_ne fun heq => hy (.inl heq),
      update_of_ne fun heq => hy (.inr heq)]
  have hwaits : ∀ y c', Function.update (Function.update stage x (.woken peer)) tid .outside y =
      .waiting c' ↔ stage y = .waiting c' := by
    intro y c'
    by_cases hy : y = tid
    · simp [hy, hst]
    · by_cases hyx : y = x
      · simp [hyx, hne, hpaired]
      · simp [hy, hyx]
  refine ⟨Function.update (Function.update stage x (.woken peer)) tid .outside,
    h.update (fun y => y = tid ∨ y = x) none _ (fun y hy => ⟨hother y hy, hupdate y hy⟩)
      (fun y => ?_) (fun y hy => ?_) (fun y hy c' hc => ?_) (fun y hy c' z hpair => ?_)
      (fun y c' z hwaking => ?_) (fun s => ?_) (fun r => ?_)
      (hipc ▸ ⟨h.sends_nodup, h.recvs_nodup⟩) (by rw [hhanded]; exact (List.append_nil _).symm)
      (by simp) hreturned (fun ret hret => ?_) (fun ret hret hy c' hc => ?_)⟩
  · by_cases hy : y = tid
    · subst hy
      rw [hself]
      exact ⟨rfl, le_rfl⟩
    · by_cases hyx : y = x
      · subst hyx
        rw [hpeer]
        exact ⟨hproc, le_rfl⟩
      · rw [hother y (by simp [hy, hyx])]
        exact ⟨rfl, le_rfl⟩
  · rcases hy with rfl | rfl
    · rw [update_self, Fits, hself]
      exact ⟨rfl, .inr hstate, hwake⟩
    · rw [hstage]
      exact Fits.woken hqueued hpeer (hhanded ▸ hservesPeer)
  · rcases hy with rfl | rfl
    · rw [update_self] at hc
      cases hc
    · rw [hstage] at hc
      cases hc
      rw [hpeer, hproc]
      exact h.named y peer hcallPeer
  · have hzx : z ≠ x := h.waker_ne hpair (by simp [hpaired])
    have hztid : z ≠ tid := by
      intro heq
      have hfits := h.fits y
      rw [hpair] at hfits
      obtain ⟨-, -, c'', m, r, hphase', -⟩ := hfits
      rw [heq, hphase] at hphase'
      exact hy (.inr (Phase.waking.inj hphase').2.1.symm)
    simp [hztid, hzx]
  · have hyt : y ≠ tid := by
      intro heq
      rw [heq, update_self] at hwaking
      cases hwaking
    have hyx : y ≠ x := by
      intro heq
      rw [heq, hstage] at hwaking
      cases hwaking
    rw [hupdate y (by simp [hyt, hyx])] at hwaking
    obtain ⟨c'', hpair⟩ := h.wakers y c' z hwaking
    refine ⟨c'', ?_⟩
    rw [hupdate z, hpair]
    intro hz
    rcases hz with rfl | rfl
    · rw [hst] at hpair
      cases hpair
    · rw [hpaired] at hpair
      exact hyt (Stage.paired.inj hpair).2.symm
  · simp only [hwaits, hipc]
    exact h.sends s
  · simp only [hwaits, hipc]
    exact h.recvs r
  · obtain rfl := List.mem_singleton.mp hret
    refine ⟨?_, .inl hnamed.1, ?_⟩
    · rw [hhanded]
      exact h.validReturn hserves fun words hwords => by rw [hwords]; rfl
    · show c.id.number < (w'.tasks c.id.tid).calls
      rw [hnamed.1, hself]
      exact Nat.lt_of_succ_le hnamed.2.1.le
  · rw [hreturned] at hret
    rcases hy with hy | hy
    · rw [hy, update_self] at hc
      cases hc
    · rw [hy, hstage] at hc
      rcases List.mem_append.mp hret with hret | hret
      · exact (h.closed ret hret).2 c' (by rw [hy, hcallPeer]; exact hc)
      · obtain rfl := List.mem_singleton.mp hret
        exact absurd (hnamed.1.symm.trans hy) hne.symm

end

end Tracks

end Frames

end Ignium.Ipc
