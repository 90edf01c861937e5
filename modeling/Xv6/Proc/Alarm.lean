import Xv6.Lib.Steps
import Xv6.Lib.Overlay
import Xv6.Lib.Bytes

namespace Xv6.Alarm

open Xv6.Lib

/-- The registers of the trap frame that the handler may change, and the user memory. -/
structure Frame where
  eip : ℕ
  esp : ℕ
  mem : ℕ → UInt8

/-- As if the program had issued a `call` of the handler. -/
def Frame.call (tf : Frame) (handler : ℕ) : Frame :=
  let esp := (tf.esp + (2 ^ 32 - 4)) % 2 ^ 32
  ⟨handler, esp, overlay tf.mem esp (le32 tf.eip)⟩

/-- `alarmticks` is an `int`, kept as its bits. -/
structure Proc where
  tf : Frame
  sz : ℕ
  ticks : ℕ
  alarmticks : BitVec 32
  alarmhandler : ℕ

def allocproc (tf : Frame) (sz : ℕ) : Proc := ⟨tf, sz, 0, 0, 0⟩

/-- A call whose arguments can be read; `argptr` wants the handler inside the process. -/
def sysAlarm (p : Proc) (ticks : BitVec 32) (handler : ℕ) : ℤ × Proc :=
  if handler ≥ p.sz then (-1, p)
  else (0, { p with alarmticks := ticks, alarmhandler := handler })

def timer (p : Proc) : Proc :=
  let ticks := (p.ticks + 1) % 2 ^ 32
  -- `ticks` is unsigned, so the `int` is compared as its bits
  if ticks ≥ p.alarmticks.toNat then
    { p with ticks, tf := p.tf.call p.alarmhandler, alarmticks := 0 }
  else { p with ticks }

structure Armed where
  period : BitVec 32
  handler : ℕ
  since : ℕ

structure History where
  total : ℕ
  latest : Option Armed

/-- The handler that the next tick has to call. -/
def History.due (h : History) : Option ℕ :=
  h.latest.bind fun a =>
    if 0 < a.period.toInt ∧ a.period.toNat ∣ a.since + 1 then some a.handler else none

inductive Event where
  | tick
  | alarm (ticks : BitVec 32) (handler : ℕ)
  | user (tf : Frame) (sz : ℕ)

def step : Event → Proc × History → Option (Proc × History)
  | .tick, (p, h) => some (timer p, ⟨h.total + 1, h.latest.map fun a => ⟨a.1, a.2, a.since + 1⟩⟩)
  | .alarm ticks handler, (p, h) =>
    let r := sysAlarm p ticks handler
    some (r.2, if r.1 = 0 then { h with latest := some ⟨ticks, handler, 0⟩ } else h)
  | .user tf sz, (p, h) => some ({ p with tf, sz }, h)

/-- An alarm is set, and the next tick completes a period or the process has had fewer ticks
than a period in all. -/
def History.Regular (h : History) : Prop :=
  h.total + 1 < 2 ^ 32 ∧ ∃ a, h.latest = some a ∧ 0 < a.period.toInt ∧
    (h.total + 1 < a.period.toNat ∨ a.period.toNat ∣ a.since + 1)

def Regularly (s : Proc × History) (e : Event) : Prop := e = .tick → s.2.Regular

structure Inv (p : Proc) (h : History) : Prop where
  ticks : p.ticks = h.total
  armed : ∀ a, h.latest = some a → p.alarmhandler = a.handler ∧ a.since ≤ h.total ∧
    (p.alarmticks = a.period ∨ p.alarmticks = 0 ∧ a.period.toNat ≤ h.total)

variable {p q : Proc} {h k : History} {e : Event} {tf : Frame} {sz : ℕ}

/-- With `ticks` never set back, the handler is called once the process has had as many ticks
in all as the period has, and at every tick from then on. -/
theorem Inv.timer (hI : Inv p h) (hlt : h.total + 1 < 2 ^ 32) {a : Armed} (ha : h.latest = some a) :
    (timer p).tf = if a.period.toNat ≤ h.total + 1 then p.tf.call a.handler else p.tf := by
  obtain ⟨hhandler, -, halarm⟩ := hI.armed a ha
  unfold Alarm.timer
  dsimp only
  rw [hI.ticks, Nat.mod_eq_of_lt hlt, hhandler]
  rcases halarm with halarm | ⟨halarm, hle⟩
  · rw [halarm]
    split_ifs <;> rfl
  · rw [halarm, if_pos (by simp), if_pos (by omega)]

theorem Inv.tick (hI : Inv p h) (hlt : h.total + 1 < 2 ^ 32) :
    Inv (Alarm.timer p) ⟨h.total + 1, h.latest.map fun a => ⟨a.1, a.2, a.since + 1⟩⟩ := by
  have hticks : (p.ticks + 1) % 2 ^ 32 = h.total + 1 := by rw [hI.ticks, Nat.mod_eq_of_lt hlt]
  constructor
  · unfold Alarm.timer
    dsimp only
    split_ifs <;> exact hticks
  · intro b hb
    obtain ⟨a, ha, rfl⟩ := Option.map_eq_some_iff.mp hb
    obtain ⟨hhandler, hsince, halarm⟩ := hI.armed a ha
    unfold Alarm.timer
    dsimp only
    rw [hticks]
    split_ifs with hfire
    · refine ⟨hhandler, Nat.succ_le_succ hsince, .inr ⟨rfl, ?_⟩⟩
      rcases halarm with halarm | ⟨-, hle⟩
      · exact halarm ▸ hfire
      · omega
    · exact ⟨hhandler, Nat.succ_le_succ hsince, halarm.imp_right fun h => ⟨h.1, by omega⟩⟩

theorem Inv.step (hI : Inv p h) (he : Regularly (p, h) e)
    (hs : step e (p, h) = some (q, k)) : Inv q k := by
  cases e with
  | tick =>
    cases hs
    exact hI.tick (he rfl).1
  | alarm ticks handler =>
    cases hs
    by_cases hsz : handler ≥ p.sz
    · rw [show sysAlarm p ticks handler = (-1, p) from if_pos hsz]
      exact hI
    · rw [show sysAlarm p ticks handler = (0, { p with alarmticks := ticks, alarmhandler := handler })
        from if_neg hsz]
      refine ⟨hI.ticks, fun a ha => ?_⟩
      cases ha
      exact ⟨rfl, Nat.zero_le _, .inl rfl⟩
  | user tf sz =>
    cases hs
    exact ⟨hI.ticks, hI.armed⟩

/-- As long as every tick is regular, a tick calls the handler when it is due and leaves the
process alone when it is not. -/
theorem timer_periodic (hs : Steps step Regularly (allocproc tf sz, ⟨0, none⟩) (p, h))
    (hreg : h.Regular) : (timer p).tf = h.due.elim p.tf p.tf.call := by
  have hI : Inv p h := by
    refine hs.inv (I := fun s : Proc × History => Inv s.1 s.2) (fun _ _ _ hI => hI.step)
      ⟨rfl, ?_⟩
    rintro a ⟨⟩
  obtain ⟨hlt, a, ha, hpos, hcond⟩ := hreg
  have hsince := (hI.armed a ha).2.1
  rw [hI.timer hlt ha, History.due, ha]
  rcases hcond with hfew | hdvd
  · have hnot : ¬ a.period.toNat ∣ a.since + 1 := fun hd => by
      have := Nat.le_of_dvd (Nat.succ_pos _) hd
      omega
    rw [if_neg (by omega), Option.bind_some, if_neg fun h => hnot h.2, Option.elim_none]
  · have hle := Nat.le_of_dvd (Nat.succ_pos _) hdvd
    rw [if_pos (by omega), Option.bind_some, if_pos ⟨hpos, hdvd⟩, Option.elim_some]

/-- The second tick after `alarm(2, 64)`. -/
theorem timer_periodic_two :
    (timer (timer (sysAlarm (allocproc ⟨0, 0, fun _ => 0⟩ 4096) 2 64).2)).tf =
      Frame.call ⟨0, 0, fun _ => 0⟩ 64 := by
  have hs : Steps step Regularly (allocproc ⟨0, 0, fun _ => 0⟩ 4096, ⟨0, none⟩)
      (timer (sysAlarm (allocproc ⟨0, 0, fun _ => 0⟩ 4096) 2 64).2, ⟨1, some ⟨2, 64, 1⟩⟩) :=
    .tail (a := .tick) (.tail (a := .alarm 2 64) .refl nofun rfl)
      (fun _ => ⟨by decide, _, rfl, by decide, .inl (by decide)⟩) rfl
  exact timer_periodic hs ⟨by decide, _, rfl, by decide, .inr (by decide)⟩

/-- A process that never called `alarm` is sent to address 0 by its first tick, and one that
did is called again at the tick after its first period. -/
theorem timer_strays :
    (∀ tf sz, (timer (allocproc tf sz)).tf = tf.call 0) ∧
      ∃ p h, Runs step (allocproc ⟨0, 0, fun _ => 0⟩ 4096, ⟨0, none⟩) (p, h) ∧
        h.due = none ∧ (timer p).tf.eip = 64 ∧ p.tf.eip = 0 := by
  refine ⟨fun tf sz => rfl, _, _, runs_of_execute (l := [.alarm 2 64, .tick, .tick,
    .user ⟨0, 0, fun _ => 0⟩ 4096]) rfl, by decide, by decide, rfl⟩

end Xv6.Alarm
