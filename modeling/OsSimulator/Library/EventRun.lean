import Mathlib.Data.List.Induction

/-!
# Runs that return events

A step takes a state to a state and returns the events of the step; a run takes the steps of a
schedule one after the other and collects all events (`eventRun`).  What holds at the start and
is kept by every step holds after every run (`eventRun_induction`); what is kept only by some
steps is proved along the prefixes of one run (`prefix_induction`).
-/

set_option autoImplicit false

namespace OsSimulator.Library

variable {α σ ε : Type*} {step : α → σ → σ × List ε} {start : σ}

def eventRun (step : α → σ → σ × List ε) (start : σ) (schedule : List α) : σ × List ε :=
  schedule.foldl (fun r a => ((step a r.1).1, r.2 ++ (step a r.1).2)) (start, [])

theorem eventRun_concat (done : List α) (a : α) :
    eventRun step start (done ++ [a]) =
      ((step a (eventRun step start done).1).1,
        (eventRun step start done).2 ++ (step a (eventRun step start done).1).2) := by
  unfold eventRun
  rw [List.foldl_append]
  rfl

theorem eventRun_append (first second : List α) :
    eventRun step start (first ++ second) =
      ((eventRun step (eventRun step start first).1 second).1,
        (eventRun step start first).2 ++
          (eventRun step (eventRun step start first).1 second).2) := by
  induction second using List.reverseRecOn with
  | nil =>
    rw [List.append_nil]
    exact Prod.ext rfl (List.append_nil _).symm
  | append_singleton second a ih =>
    rw [← List.append_assoc, eventRun_concat, ih, eventRun_concat, List.append_assoc]

theorem eventRun_cons (a : α) (rest : List α) :
    eventRun step start (a :: rest) = ((eventRun step (step a start).1 rest).1,
      (step a start).2 ++ (eventRun step (step a start).1 rest).2) :=
  eventRun_append [a] rest

theorem eventRun_induction {P : σ → List ε → Prop} (hstart : P start [])
    (hstep : ∀ s events a, P s events → P (step a s).1 (events ++ (step a s).2))
    (schedule : List α) : P (eventRun step start schedule).1 (eventRun step start schedule).2 := by
  induction schedule using List.reverseRecOn with
  | nil => exact hstart
  | append_singleton done a ih =>
    rw [eventRun_concat]
    exact hstep _ _ a ih

/-- What holds at a point of a run and is kept by its further steps holds at its end. -/
theorem prefix_induction {P : List α → Prop} {before schedule : List α}
    (hpre : before <+: schedule) (hbase : P before)
    (hstep : ∀ done a, before <+: done → done ++ [a] <+: schedule → P done → P (done ++ [a])) :
    P schedule := by
  obtain ⟨rest, rfl⟩ := hpre
  induction rest using List.reverseRecOn with
  | nil => rwa [List.append_nil]
  | append_singleton rest a ih =>
    have hlast : before ++ rest ++ [a] <+: before ++ (rest ++ [a]) :=
      ⟨[], by rw [List.append_nil, List.append_assoc]⟩
    rw [← List.append_assoc]
    refine hstep _ a (List.prefix_append ..) hlast (ih fun done b hdone hpre => ?_)
    exact hstep done b hdone (hpre.trans ((List.prefix_append ..).trans hlast))

/-- All steps of a run that is one step longer. -/
theorem steps_concat {Clean : List α → α → Prop} {schedule : List α} {a : α} :
    (∀ done b, done ++ [b] <+: schedule ++ [a] → Clean done b) ↔
      (∀ done b, done ++ [b] <+: schedule → Clean done b) ∧ Clean schedule a := by
  constructor
  · intro h
    exact ⟨fun done b hpre => h done b (hpre.trans (List.prefix_append ..)),
      h schedule a (List.prefix_refl _)⟩
  · rintro ⟨h, hlast⟩ done b hpre
    rcases List.prefix_concat_iff.mp hpre with heq | hpre
    · obtain ⟨rfl, hab⟩ := List.append_inj' heq rfl
      rw [List.singleton_inj.mp hab]
      exact hlast
    · exact h done b hpre

/-- Where a step keeps `Good` exactly when it is `Clean`, all points of a run are good exactly when
all of its steps are clean. -/
theorem always_iff_clean (Good : List α → Prop) (Clean : List α → α → Prop) (hnil : Good [])
    (hstep : ∀ done a, Good done → (Good (done ++ [a]) ↔ Clean done a)) (schedule : List α) :
    (∀ done, done <+: schedule → Good done) ↔
      ∀ done a, done ++ [a] <+: schedule → Clean done a := by
  constructor
  · intro h done a hpre
    exact (hstep done a (h done ((List.prefix_append ..).trans hpre))).mp (h _ hpre)
  · intro h done hpre
    induction done using List.reverseRecOn with
    | nil => exact hnil
    | append_singleton done a ih =>
      exact (hstep done a (ih ((List.prefix_append ..).trans hpre))).mpr (h done a hpre)

/-- A run that may stop: what its steps keep holds at its end. -/
theorem foldlM_induction {step : σ → α → Option σ} {P : σ → Prop} {as : List α} {s s' : σ}
    (hrun : as.foldlM step s = some s') (hs : P s)
    (hstep : ∀ a ∈ as, ∀ s s', step s a = some s' → P s → P s') : P s' := by
  induction as generalizing s with
  | nil =>
    cases hrun
    exact hs
  | cons a as ih =>
    rw [List.foldlM_cons] at hrun
    obtain ⟨mid, hmid, hrest⟩ := Option.bind_eq_some_iff.mp hrun
    exact ih hrest (hstep a List.mem_cons_self s mid hmid hs) fun b hb =>
      hstep b (List.mem_cons_of_mem a hb)

end OsSimulator.Library
