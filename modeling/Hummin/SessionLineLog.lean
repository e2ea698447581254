/-
The log of delivered outcomes, the count of outstanding jobs, and the end callbacks.
-/
import Mathlib.Data.List.Perm.Basic
import Mathlib.Data.List.Range
import Mathlib.Data.Finset.Card
import Hummin.SessionLineJobs

namespace Hummin.SessionLine

open List Function

variable {ε α κ : Type} {jobs others : Nat → Job ε α κ} {later : Job ε α κ}
  {index nextIndex clock : Nat} {fence : Option Nat}

/-! ### Deliveries behind a settled fence -/

variable {tick : Nat}

theorem Stage.eq_finished {stage : Stage} (htick : stage.finishedAt? = some tick) :
    stage = .finished tick := by
  cases stage with
  | finished found => rw [Option.some.inj htick]
  | _ => cases htick

/-- Two ticks after the fence behind a job settled, the job is delivered. -/
theorem Job.Fits.delivered {job : Job ε α κ} {opened : Option Nat}
    (hfits : job.Fits clock opened) (hcurrent : job.Current clock)
    (hfence : job.fence = .finished tick) (hpast : tick + 2 < clock) :
    job.delivery.isFinished = true := by
  have hsettled := hfits.fenceFits
  rw [hfence] at hsettled
  obtain ⟨hsettled, before, -, hopened⟩ := hsettled
  have hdelivery := hfits.deliveryFits
  have hlags := hfits.lags hsettled
  rw [hfence] at hlags
  have hlate : ∀ due now, job.delivery.tick? = some now → now ≤ due →
      job.delivery.deliveryDue = some due → False := by
    intro due now hnow hle hdue
    have hclock := (hcurrent .delivery now hnow).1
    have hbound := hlags tick due rfl hdue
    omega
  obtain ⟨stage, hstage⟩ : ∃ stage, job.delivery = stage := ⟨_, rfl⟩
  rw [hstage] at hdelivery hlate ⊢
  cases stage with
  | idle =>
    rw [hdelivery] at hsettled
    cases hsettled
  | choosing now => exact (hlate (now + 4) now rfl (by omega) rfl).elim
  | blocked =>
    rw [hopened] at hdelivery
    cases hdelivery.2
  | called now => exact (hlate (now + 3) now rfl (by omega) rfl).elim
  | adopting now => exact (hlate (now + 2) now rfl (by omega) rfl).elim
  | following => cases hsettled.symm.trans hdelivery.2.1
  | listening => cases hsettled.symm.trans hdelivery.2
  | settling now => exact (hlate (now + 1) now rfl (by omega) rfl).elim
  | finishing now => exact (hlate now now rfl le_rfl rfl).elim
  | finished _ => rfl

/-- So are all jobs before it: their fences settled no later. -/
theorem Standing.delivered (hstanding : Standing jobs nextIndex fence clock)
    (hcurrent : ∀ other, (jobs other).Current clock) {last : Nat}
    (hlast : (jobs last).kind ≠ .upkeep) (hfence : (jobs last).fence = .finished tick)
    (hpast : tick + 2 < clock) {earlier : Nat} (hearlier : earlier ≤ last)
    (hkind : (jobs earlier).kind ≠ .upkeep) : (jobs earlier).delivery.isFinished = true := by
  induction last using Nat.strong_induction_on generalizing tick with
  | _ last ih =>
    have hfits := hstanding.fits last hlast
    rcases Nat.lt_or_eq_of_le hearlier with hlt | rfl
    · have hbehind := hstanding.behind last hlast
      have hopened := hfits.fenceFits
      rw [hfence] at hopened
      obtain ⟨-, before, hle, hopened⟩ := hopened
      obtain ⟨place, hplace⟩ : ∃ place, (jobs last).before = place := ⟨_, rfl⟩
      rw [hplace] at hbehind hopened
      cases place with
      | none => exact absurd (hbehind earlier hlt) hkind
      | some place =>
        obtain ⟨hbound, houtcome, hall⟩ := hbehind
        have hsettled : (jobs place).fence = .finished before := Stage.eq_finished hopened
        exact ih place hbound houtcome hsettled (by omega) (hall earlier hlt hkind)
    · exact hfits.delivered (hcurrent earlier) hfence hpast

/-- What is delivered behind the fence comes after all jobs before it. -/
theorem Standing.delivered_before (hstanding : Standing jobs nextIndex fence clock)
    (hcurrent : ∀ other, (jobs other).Current clock)
    (hdelivery : (jobs index).delivery = .finishing clock) (houtcome : (jobs index).kind ≠ .upkeep)
    (hfenced : (jobs index).fenced = true) {earlier : Nat} (hearlier : earlier < index)
    (hkind : (jobs earlier).kind ≠ .upkeep) : (jobs earlier).delivery.isFinished = true := by
  have hfits := (hstanding.fits index houtcome).deliveryFits
  rw [hdelivery] at hfits
  obtain ⟨before, hopened, hle⟩ := hfits.2 hfenced
  have hbehind := hstanding.behind index houtcome
  obtain ⟨place, hplace⟩ : ∃ place, (jobs index).before = place := ⟨_, rfl⟩
  rw [hplace] at hbehind hopened
  cases place with
  | none => exact absurd (hbehind earlier hearlier) hkind
  | some place =>
    obtain ⟨-, hlast, hall⟩ := hbehind
    have hsettled : (jobs place).fence = .finished before := Stage.eq_finished hopened
    exact hstanding.delivered hcurrent hlast hsettled (by omega) (hall earlier hearlier hkind) hkind

/-! ### The log -/

/-- The log holds what was delivered, each once, and what was delivered behind the fence comes
after all jobs before it. -/
structure Logged (jobs : Nat → Job ε α κ) (delivered : List (Delivery ε α)) : Prop where
  finished : ∀ index, (jobs index).delivery.isFinished = true ↔ index ∈ delivered.map (·.index)
  distinct : (delivered.map (·.index)).Nodup
  answers : ∀ entry ∈ delivered, entry.fenced = (jobs entry.index).fenced ∧
    (entry.outcome = .error .sessionFailed ∨ (jobs entry.index).value = some entry.outcome)
  ordered : ∀ (earlier : List (Delivery ε α)) (entry : Delivery ε α) later,
    delivered = earlier ++ entry :: later → entry.fenced = true →
    ∀ index < entry.index, (jobs index).kind ≠ .upkeep → index ∈ earlier.map (·.index)

variable {delivered : List (Delivery ε α)}

theorem Logged.congr (hlogged : Logged jobs delivered)
    (hfinished : ∀ index, (others index).delivery.isFinished = (jobs index).delivery.isFinished)
    (hanswers : ∀ index, (jobs index).delivery.isFinished = true →
      (others index).fenced = (jobs index).fenced ∧ (others index).value = (jobs index).value)
    (hkind : ∀ entry ∈ delivered, ∀ index < entry.index,
      (others index).kind = (jobs index).kind) : Logged others delivered := by
  refine ⟨?_, hlogged.distinct, ?_, ?_⟩
  · intro index
    rw [hfinished]
    exact hlogged.finished index
  · intro entry hentry
    have hdone := (hlogged.finished entry.index).mpr (mem_map_of_mem hentry)
    rw [(hanswers entry.index hdone).1, (hanswers entry.index hdone).2]
    exact hlogged.answers entry hentry
  intro earlier entry later hsplit hfenced index hindex houtcome
  have hentry : entry ∈ delivered := by
    rw [hsplit]
    exact mem_append_right _ mem_cons_self
  rw [hkind entry hentry index hindex] at houtcome
  exact hlogged.ordered earlier entry later hsplit hfenced index hindex houtcome

/-- A job is delivered. -/
theorem Logged.deliver (hlogged : Logged jobs delivered) {entry : Delivery ε α}
    (hunfinished : (jobs entry.index).delivery.isFinished = false)
    (hkind : later.kind = (jobs entry.index).kind) (hfinished : later.delivery.isFinished = true)
    (hfenced : entry.fenced = later.fenced)
    (hvalue : entry.outcome = .error .sessionFailed ∨ later.value = some entry.outcome)
    (hbefore : entry.fenced = true → ∀ earlier < entry.index, (jobs earlier).kind ≠ .upkeep →
      (jobs earlier).delivery.isFinished = true) :
    Logged (update jobs entry.index later) (delivered ++ [entry]) := by
  have hnew : entry.index ∉ delivered.map (·.index) := by
    rw [← hlogged.finished, hunfinished]
    exact nofun
  have hkinds := update_congr Job.kind hkind
  refine ⟨?_, ?_, ?_, ?_⟩
  · intro other
    rw [map_append, mem_append, map_singleton, mem_singleton]
    by_cases hother : other = entry.index
    · rw [hother, update_self]
      exact ⟨fun _ => .inr rfl, fun _ => hfinished⟩
    rw [update_of_ne hother, hlogged.finished]
    exact ⟨.inl, fun hmem => hmem.resolve_right hother⟩
  · rw [map_append, nodup_append]
    refine ⟨hlogged.distinct, pairwise_singleton _ _, ?_⟩
    intro first hfirst second hsecond heq
    obtain rfl := mem_singleton.mp hsecond
    subst heq
    exact hnew hfirst
  · intro found hfound
    rcases mem_append.mp hfound with hold | hlast
    · have hne : found.index ≠ entry.index :=
        fun heq => hnew (heq ▸ mem_map_of_mem hold)
      rw [update_of_ne hne]
      exact hlogged.answers found hold
    obtain rfl := mem_singleton.mp hlast
    rw [update_self]
    exact ⟨hfenced, hvalue⟩
  intro earlier found rest hsplit hbehind other hother houtcome
  rw [hkinds] at houtcome
  rcases eq_nil_or_concat rest with rfl | ⟨front, last, rfl⟩
  · obtain ⟨rfl, hlast⟩ := append_inj' hsplit rfl
    obtain rfl := head_eq_of_cons_eq hlast
    rw [← hlogged.finished]
    exact hbefore hbehind other hother houtcome
  rw [concat_eq_append, ← cons_append, ← append_assoc] at hsplit
  obtain ⟨hold, -⟩ := append_inj' hsplit rfl
  exact hlogged.ordered earlier found front hold hbehind other hother houtcome

/-! ### Outstanding jobs -/

/-- The job began on the line. -/
def Job.started (job : Job ε α κ) : Bool :=
  match job.line with
  | .queued => false
  | _ => true

/-- A job that began on the line and whose outcome is not delivered. -/
def Job.isOutstanding (job : Job ε α κ) : Bool :=
  decide (job.kind ≠ .upkeep) && job.started && !job.delivery.isFinished

/-- The jobs that began on the line without a delivered outcome. -/
def waiting (jobs : Nat → Job ε α κ) (nextIndex : Nat) : Finset Nat :=
  (Finset.range nextIndex).filter fun index => (jobs index).isOutstanding = true

theorem mem_waiting : index ∈ waiting jobs nextIndex ↔
    index < nextIndex ∧ (jobs index).isOutstanding = true := by
  rw [waiting, Finset.mem_filter, Finset.mem_range]

theorem waiting_congr (hsame : ∀ index, (others index).isOutstanding = (jobs index).isOutstanding) :
    waiting others nextIndex = waiting jobs nextIndex := by
  ext index
  rw [mem_waiting, mem_waiting, hsame]

/-- A job that did not begin is not outstanding. -/
theorem waiting_succ (hnew : (others nextIndex).isOutstanding = false)
    (hsame : ∀ index < nextIndex, (others index).isOutstanding = (jobs index).isOutstanding) :
    waiting others (nextIndex + 1) = waiting jobs nextIndex := by
  ext index
  rw [mem_waiting, mem_waiting]
  constructor
  · rintro ⟨hbound, hwaits⟩
    rcases Nat.lt_succ_iff_lt_or_eq.mp hbound with hlt | rfl
    · exact ⟨hlt, hsame index hlt ▸ hwaits⟩
    · cases hnew.symm.trans hwaits
  rintro ⟨hbound, hwaits⟩
  exact ⟨Nat.lt_succ_of_lt hbound, (hsame index hbound).trans hwaits⟩

theorem card_waiting_begin (hindex : index < nextIndex)
    (hbefore : (jobs index).isOutstanding = false) (hlater : later.isOutstanding = true) :
    (waiting (update jobs index later) nextIndex).card = (waiting jobs nextIndex).card + 1 := by
  have hnew : index ∉ waiting jobs nextIndex := by
    rw [mem_waiting, hbefore]
    exact fun hboth => nomatch hboth.2
  rw [← Finset.card_insert_of_notMem hnew]
  congr 1
  ext other
  rw [Finset.mem_insert, mem_waiting, mem_waiting]
  by_cases hother : other = index
  · rw [hother, update_self]
    exact ⟨fun _ => .inl rfl, fun _ => ⟨hindex, hlater⟩⟩
  rw [update_of_ne hother]
  exact ⟨.inr, fun hmem => hmem.resolve_left hother⟩

theorem card_waiting_deliver (hindex : index < nextIndex)
    (hbefore : (jobs index).isOutstanding = true) (hlater : later.isOutstanding = false) :
    (waiting (update jobs index later) nextIndex).card = (waiting jobs nextIndex).card - 1 := by
  rw [← Finset.card_erase_of_mem (mem_waiting.mpr ⟨hindex, hbefore⟩)]
  congr 1
  ext other
  rw [Finset.mem_erase, mem_waiting, mem_waiting]
  by_cases hother : other = index
  · rw [hother, update_self, hlater]
    exact ⟨fun hboth => absurd hboth.2 nofun, fun hboth => absurd rfl hboth.1⟩
  rw [update_of_ne hother]
  exact ⟨fun hboth => ⟨hother, hboth⟩, fun hboth => hboth.2⟩

/-! ### End callbacks -/

/-- The end callbacks that did not run, job by job. -/
def pendingEnds (jobs : Nat → Job ε α κ) (nextIndex : Nat) : List Nat :=
  (List.range nextIndex).flatMap fun index => (jobs index).ends

theorem pendingEnds_congr (hsame : ∀ index, (others index).ends = (jobs index).ends) :
    pendingEnds others nextIndex = pendingEnds jobs nextIndex := by
  rw [pendingEnds, pendingEnds]
  congr 1
  funext index
  exact hsame index

theorem pendingEnds_succ (hnew : (others nextIndex).ends = [])
    (hsame : ∀ index < nextIndex, (others index).ends = (jobs index).ends) :
    pendingEnds others (nextIndex + 1) = pendingEnds jobs nextIndex := by
  rw [pendingEnds, range_succ, flatMap_append, flatMap_singleton, hnew, append_nil, pendingEnds]
  apply flatMap_congr
  intro index hindex
  exact hsame index (mem_range.mp hindex)

/-- The callbacks of one job, and those of the others. -/
theorem perm_pendingEnds_update (hindex : index < nextIndex) : ∃ rest : List Nat,
    (pendingEnds jobs nextIndex).Perm ((jobs index).ends ++ rest) ∧
      (pendingEnds (update jobs index later) nextIndex).Perm (later.ends ++ rest) := by
  have hperm := perm_cons_erase (mem_range.mpr hindex)
  have hnot : index ∉ (range nextIndex).erase index :=
    fun hmem => (nodup_range.mem_erase_iff.mp hmem).1 rfl
  refine ⟨((range nextIndex).erase index).flatMap fun other => (jobs other).ends,
    hperm.flatMap_right _, ?_⟩
  refine (hperm.flatMap_right _).trans ?_
  rw [flatMap_cons, update_self]
  apply List.Perm.append_left
  apply List.Perm.of_eq
  apply flatMap_congr
  intro other hother
  have hne : other ≠ index := fun heq => hnot (heq ▸ hother)
  rw [update_of_ne hne]

end Hummin.SessionLine
