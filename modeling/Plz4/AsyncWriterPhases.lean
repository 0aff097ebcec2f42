/-
How far the threads of the asynchronous writer are, against each other.

`Phases` ties the closed channels, the tasks and the write loop to where the caller is
in `Close`, and the flush that is waited for to where it is in `Flush`.
-/
import Plz4.AsyncWriterPlaces

set_option autoImplicit false

namespace Plz4

/-- How far the caller is in `Close`. -/
def Caller.closing : Caller → ℕ
  | .closeIn => 1
  | .wgWait => 2
  | .synJoin => 3
  | _ => 0

/-- Where the caller can be after `Close`. -/
def Caller.outside : Caller → Bool
  | .idle | .write _ _ | .readFrom _ _ | .report _ => true
  | _ => false

/-- The write loop is past its main loop. -/
def Loop.closing : Loop → Bool
  | .drain | .finish | .hashDone _ | .hashWait _ | .trailer _ | .setErr _ .closeSyn | .closeSyn
  | .done => true
  | _ => false

/-- The write loop is not yet in its main loop. -/
def Loop.starting : Loop → Bool
  | .header | .setErr _ .select => true
  | _ => false

theorem Caller.closing_of_starts {x : Caller} (h : x.starts = true) : x.closing = 0 := by
  cases x <;> first | rfl | cases h

theorem Caller.closing_of_ends {x : Caller} (h : x.ends = true) : x.closing = 0 := by
  cases x <;> first | rfl | cases h

theorem Caller.synJoin_of_closing {x : Caller} (h : 3 ≤ x.closing) : x = .synJoin := by
  unfold Caller.closing at h
  split at h
  · omega
  · omega
  · rfl
  · omega

namespace AsyncWriter

variable {Z : Clz4} {c : WriterCfg} {s s' : AsyncWriter Z} {a : Act}

theorem closing_resumeAt (k : Then) : (resumeAt k).closing = 0 := by
  rcases k with _ | _ | _ | _ <;> rfl

theorem resumeAt_ne_synWait (k : Then) : resumeAt k ≠ .synWait := by
  rcases k with _ | _ | _ | _ <;> rintro ⟨⟩

theorem afterFree_ne_done (b : InBlkW) (out : Option OutBlk) : afterFree b out ≠ .done := by
  rcases out with _ | out <;> rintro ⟨⟩

/-! ## The error state -/

/-- The first error stays. -/
theorem err_step (hstep : Step c s a s') (h : s.err ≠ none) : s'.err = s.err := by
  obtain ⟨e, he⟩ := Option.ne_none_iff_exists'.mp h
  cases hstep with
  | readErr | headerErr | setErr | trailerErr =>
      show s.err.or _ = s.err
      rw [he, Option.some_or]
  | join | synReplyJoin =>
      show (if s.report then s.err else s.err.or _) = s.err
      rw [he, Option.some_or, ite_self]
  | _ => rfl

theorem err_ne_step (hstep : Step c s a s') (h : s.err ≠ none) : s'.err ≠ none :=
  (err_step hstep h).symm ▸ h

/-- No error has occurred, and none is about to be set by the write loop. -/
def Live (s : AsyncWriter Z) : Prop := s.err = none ∧ ∀ e k, s.loop ≠ .setErr e k

/-- Once gone it does not come back. -/
theorem live_step (hstep : Step c s a s') (h : Live s') : Live s := by
  constructor
  · by_contra herr
    have := err_step hstep herr
    exact herr (this ▸ h.1)
  · intro e k he
    cases hstep with
    | headerErr hloop | setErr hloop | trailerErr hloop =>
        have h1 : s.err.or (some _) = none := h.1
        rw [Option.or_eq_none_iff] at h1
        cases h1.2
    | sendOut _ _ hloop | synSend _ hloop | synReply _ hloop | synReplyJoin _ hloop | header hloop
    | headerFail hloop | outClosed hloop | gotDrop hloop | gotPark hloop | gotErr hloop
    | gotWrite hloop | write hloop | crash hloop | kickDrop hloop | kickErr hloop | kickFail hloop
    | kickNext hloop | kickLast hloop | reply hloop | noReply hloop | drainKick hloop
    | drained hloop
    | finish hloop | abort hloop | hashDone hloop | hashWait hloop | trailer hloop
    | trailerFail hloop | closeSyn hloop =>
        rw [hloop] at he
        cases he
    | _ => exact h.2 e k he

/-! ## Close and Flush -/

/-- How far the closing is: 4 once `Close` has returned. -/
def phase (s : AsyncWriter Z) : ℕ := if s.srcBlk = none then 4 else s.caller.closing

theorem phase_of_some (h : s.srcBlk ≠ none) : s.phase = s.caller.closing := if_neg h

structure Phases (s : AsyncWriter Z) : Prop where
  sem : s.semClosed = true ↔ 1 ≤ s.phase
  inn : s.inClosed = true ↔ 2 ≤ s.phase
  out : s.outClosed = true ↔ 3 ≤ s.phase
  syn : s.synClosed = true ↔ s.loop = .done
  tasks : 3 ≤ s.phase → ∀ t ∈ s.tasks, t.loc = .done
  exits : ∀ t ∈ s.tasks, t.loc = .done → 2 ≤ s.phase
  loop : s.loop.closing = true → 3 ≤ s.phase
  after : s.srcBlk = none → s.loop = .done ∧ s.err ≠ none ∧ s.caller.outside = true
  report : s.report = true → s.err ≠ none
  flush : ∀ f, s.flushIdx = some f → s.caller = .synWait ∧ f = s.srcIdx
  waits : s.caller = .synWait → s.flushIdx = some s.srcIdx
  replies : s.loop = .synSend → s.caller = .synWait
  starts : s.loop.starting = true → s.caller ≠ .synWait

/-- The block buffer is there while the caller is anywhere in the writer. -/
theorem Phases.srcBlk (h : Phases s) (hout : s.caller.outside = false) : s.srcBlk ≠ none := by
  intro hblk
  rw [(h.after hblk).2.2] at hout
  cases hout

theorem Phases.srcBlk_of_loop (h : Phases s) (hloop : s.loop ≠ .done) : s.srcBlk ≠ none :=
  fun hblk => hloop (h.after hblk).1

/-- While the write loop is closing down, the caller waits for it. -/
theorem Phases.synJoin (h : Phases s) (hcl : s.loop.closing = true) (hne : s.loop ≠ .done) :
    s.caller = .synJoin := by
  have hthree := h.loop hcl
  rw [phase_of_some (h.srcBlk_of_loop hne)] at hthree
  exact Caller.synJoin_of_closing hthree

/-- While the caller waits for the response to a flush, the write loop is in its loop. -/
theorem Phases.not_closing (h : Phases s) (hcaller : s.caller = .synWait) :
    s.loop.closing = false := by
  rw [← Bool.not_eq_true]
  intro hcl
  have h3 := h.loop hcl
  rw [phase_of_some (h.srcBlk (by rw [hcaller]; rfl)), hcaller] at h3
  exact absurd h3 (by decide)

theorem Phases.synWait_open (h : Phases s) (hcaller : s.caller = .synWait) :
    s.synClosed = false := by
  rw [← Bool.not_eq_true, h.syn]
  intro hdone
  have hcl := h.not_closing hcaller
  rw [hdone] at hcl
  cases hcl

/-- After `Close` a step of the caller alone stays outside. -/
theorem Local.outside {x : Caller} {script : List WCall} {b : Option Blk} {rep : Bool}
    {rs : List CallRes} {es : List Err} (h : Local c s x script b rep rs es)
    (hblk : s.srcBlk = none) (herr : s.err ≠ none) : x.outside = true := by
  cases h with
  | report | write | readFrom => rfl
  | closeBlk _ _ h | close _ _ h => exact absurd hblk h
  | flushBlk _ _ h | flushNone _ _ h | flushSyn _ _ h | writeFull _ _ h | writeMore _ _ h
  | readFull _ h | readShort _ h | readEof _ h | readFail _ h => exact absurd h herr

/-- The report flag is raised with the error there. -/
theorem Local.report_err {x : Caller} {script : List WCall} {b : Option Blk} {rep : Bool}
    {rs : List CallRes} {es : List Err} (h : Local c s x script b rep rs es)
    (hrep : s.report = true → s.err ≠ none) :
    rep = true → s.err ≠ none := by
  cases h with
  | report =>
      intro h
      rw [Bool.or_eq_true, Option.isSome_iff_ne_none] at h
      exact h.elim hrep id
  | _ => exact hrep

theorem Local.ne_synWait {x : Caller} {script : List WCall} {b : Option Blk} {rep : Bool}
    {rs : List CallRes} {es : List Err} (h : Local c s x script b rep rs es) :
    s.caller ≠ .synWait ∧ x ≠ .synWait := by
  have h1 := h.starts
  have h2 := h.ends
  constructor
  · intro hx
    rw [hx] at h1
    cases h1
  · rintro rfl
    cases h2

/-- A task that has not exited keeps the closing from going past the wait for it. -/
theorem Phases.phase_lt {i : ℕ} {t : Task Z} (h : Phases s) (hi : s.tasks[i]? = some t)
    (hloc : t.loc ≠ .done) : ¬ 3 ≤ s.phase :=
  fun h3 => hloc (h.tasks h3 t (List.mem_of_getElem? hi))

/-- A step of the write loop alone. -/
structure Turn (s s' : AsyncWriter Z) : Prop where
  caller : s'.caller = s.caller
  srcBlk : s'.srcBlk = s.srcBlk
  srcIdx : s'.srcIdx = s.srcIdx
  report : s'.report = s.report
  flushIdx : s'.flushIdx = s.flushIdx
  tasks : s'.tasks = s.tasks
  semClosed : s'.semClosed = s.semClosed
  inClosed : s'.inClosed = s.inClosed
  outClosed : s'.outClosed = s.outClosed
  err : s.err ≠ none → s'.err = s.err

theorem Turn.phase (ht : Turn s s') : s'.phase = s.phase := by
  unfold AsyncWriter.phase
  rw [ht.srcBlk, ht.caller]

theorem Phases.turn (h : Phases s) (ht : Turn s s') (hs : s.loop ≠ .done)
    (hsyn : s'.synClosed = true ↔ s'.loop = .done)
    (hcl : s'.loop.closing = true → 3 ≤ s.phase)
    (hrep : s'.loop = .synSend → s.caller = .synWait)
    (hstart : s'.loop.starting = true → s.caller ≠ .synWait) :
    Phases s' := by
  have hblk := h.srcBlk_of_loop hs
  refine ⟨?_, ?_, ?_, hsyn, ?_, ?_, ?_, ?_, ?_, ?_, ?_, ?_, ht.caller.symm ▸ hstart⟩
  · rw [ht.semClosed, ht.phase]
    exact h.sem
  · rw [ht.inClosed, ht.phase]
    exact h.inn
  · rw [ht.outClosed, ht.phase]
    exact h.out
  · rw [ht.phase, ht.tasks]
    exact h.tasks
  · rw [ht.phase, ht.tasks]
    exact h.exits
  · rw [ht.phase]
    exact hcl
  · rw [ht.srcBlk]
    exact fun hb => absurd hb hblk
  · rw [ht.report]
    intro hr
    rw [ht.err (h.report hr)]
    exact h.report hr
  · rw [ht.flushIdx, ht.caller, ht.srcIdx]
    exact h.flush
  · rw [ht.flushIdx, ht.caller, ht.srcIdx]
    exact h.waits
  · rw [ht.caller]
    exact hrep

/-- The loop goes on in its main loop. -/
theorem Phases.main (h : Phases s) (ht : Turn s s') (hs : s.loop ≠ .done)
    (hsyn : s'.synClosed = s.synClosed) (hcl : s'.loop.closing = false)
    (hrep : s'.loop = .synSend → s.caller = .synWait)
    (hstart : s'.loop.starting = true → s.caller ≠ .synWait) : Phases s' := by
  refine h.turn ht hs ?_ (fun h => ?_) hrep hstart
  · rw [hsyn, h.syn]
    refine iff_of_false hs (fun hd => ?_)
    rw [hd] at hcl
    cases hcl
  · rw [hcl] at h
    cases h

/-- The loop goes on after its main loop. -/
theorem Phases.tail (h : Phases s) (ht : Turn s s') (hs : s.loop ≠ .done)
    (hsyn : s'.synClosed = s.synClosed) (hcl : s.loop.closing = true) (hl : s'.loop ≠ .done)
    (hrep : s'.loop ≠ .synSend) (hstart : s'.loop.starting = true → s.caller ≠ .synWait) :
    Phases s' := by
  refine h.turn ht hs ?_ (fun _ => h.loop hcl) (fun h => absurd h hrep) hstart
  rw [hsyn, h.syn]
  exact iff_of_false hs hl

/-- A step that takes the caller on, outside of `Close` and of the waiting in `Flush`. -/
structure Move (s s' : AsyncWriter Z) : Prop where
  closing : s.caller.closing = 0 ∧ s'.caller.closing = 0
  srcBlk : s'.srcBlk = none ↔ s.srcBlk = none
  loop : s'.loop = s.loop
  semClosed : s'.semClosed = s.semClosed
  inClosed : s'.inClosed = s.inClosed
  outClosed : s'.outClosed = s.outClosed
  synClosed : s'.synClosed = s.synClosed
  flushIdx : s'.flushIdx = s.flushIdx
  err : s.err ≠ none → s'.err = s.err
  from_ : s.caller ≠ .synWait
  to_ : s'.caller ≠ .synWait

theorem Move.phase (hm : Move s s') : s'.phase = s.phase := by
  unfold AsyncWriter.phase
  simp only [hm.srcBlk, hm.closing.1, hm.closing.2]

theorem Phases.move (h : Phases s) (hm : Move s s')
    (htasks : 3 ≤ s.phase → ∀ t ∈ s'.tasks, t.loc = .done)
    (hexits : ∀ t ∈ s'.tasks, t.loc = .done → 2 ≤ s.phase)
    (hout : s'.srcBlk = none → s'.caller.outside = true)
    (hrep : s'.report = true → s'.err ≠ none) : Phases s' := by
  refine ⟨?_, ?_, ?_, ?_, ?_, ?_, ?_, ?_, hrep, ?_, fun hw => absurd hw hm.to_, ?_, fun _ => hm.to_⟩
  · rw [hm.semClosed, hm.phase]
    exact h.sem
  · rw [hm.inClosed, hm.phase]
    exact h.inn
  · rw [hm.outClosed, hm.phase]
    exact h.out
  · rw [hm.synClosed, hm.loop]
    exact h.syn
  · rw [hm.phase]
    exact htasks
  · rw [hm.phase]
    exact hexits
  · rw [hm.loop, hm.phase]
    exact h.loop
  · intro hb
    obtain ⟨h1, h2, -⟩ := h.after (hm.srcBlk.mp hb)
    rw [hm.loop, hm.err h2]
    exact ⟨h1, h2, hout hb⟩
  · rw [hm.flushIdx]
    intro f hf
    exact absurd (h.flush f hf).1 hm.from_
  · rw [hm.loop]
    exact fun hl => absurd (h.replies hl) hm.from_

/-- `Close` takes the next of its steps. -/
theorem Phases.close (h : Phases s) {x : Caller} {k : ℕ} (hcaller : s.caller.closing = k)
    (hout : s.caller.outside = false) (hnw : s.caller ≠ .synWait) (hx : x.closing = k + 1)
    (hxw : x ≠ .synWait) {semCl inCl outCl : Bool}
    (hsem : semCl = true ↔ 1 ≤ k + 1) (hin : inCl = true ↔ 2 ≤ k + 1)
    (hcl : outCl = true ↔ 3 ≤ k + 1) (htasks : 3 ≤ k + 1 → ∀ t ∈ s.tasks, t.loc = .done)
    (s' : AsyncWriter Z)
    (hs' : s' = { s with semClosed := semCl, inClosed := inCl, outClosed := outCl, caller := x }) :
    Phases s' := by
  have hblk := h.srcBlk hout
  have hph : s.phase = k := by rw [phase_of_some hblk, hcaller]
  have hph' : s'.phase = k + 1 := by
    subst hs'
    exact (if_neg hblk).trans hx
  have hexits : ∀ t ∈ s.tasks, t.loc = .done → 2 ≤ k + 1 := by
    intro t ht hd
    have := h.exits t ht hd
    omega
  have hloop : s.loop.closing = true → 3 ≤ k + 1 := by
    intro hl
    have := h.loop hl
    omega
  rw [← hph'] at hsem hin hcl htasks hexits hloop
  subst hs'
  refine ⟨hsem, hin, hcl, h.syn, htasks, hexits, hloop, ?_, h.report, ?_, fun hw => absurd hw hxw, ?_,
    fun _ => hxw⟩
  · exact fun hb => absurd hb hblk
  · exact fun f hf => absurd (h.flush f hf).1 hnw
  · exact fun hl => absurd (h.replies hl) hnw

/-- **Every step keeps the phases.** -/
theorem Phases.step (h : Phases s) (hstep : Step c s a s') : Phases s' := by
  cases hstep with
  -- the caller
  | @loc x script b rep rs es hl =>
      obtain ⟨hw, hw'⟩ := hl.ne_synWait
      refine h.move ⟨⟨Caller.closing_of_starts hl.starts, Caller.closing_of_ends hl.ends⟩, hl.srcBlk,
        rfl, rfl, rfl, rfl, rfl, rfl, fun _ => rfl, hw, hw'⟩ h.tasks h.exits (fun hb => ?_)
        (hl.report_err h.report)
      have hblk := hl.srcBlk.mp hb
      exact hl.outside hblk (h.after hblk).2.1
  | @readErr e n hcaller =>
      have hblk := h.srcBlk (by rw [hcaller]; rfl)
      have herr : s.err.or (some e) ≠ none := by
        rw [ne_eq, Option.or_eq_none_iff]
        rintro ⟨_, ⟨⟩⟩
      refine h.move ⟨⟨by rw [hcaller]; rfl, rfl⟩, Iff.rfl, rfl, rfl, rfl, rfl, rfl, rfl,
        err_step (.readErr (c := c) hcaller), ?_, ?_⟩ h.tasks h.exits
        (fun hb => absurd hb hblk) (fun _ => herr)
      · rw [hcaller]
        rintro ⟨⟩
      · rintro ⟨⟩
  | queue hcaller hblk hh hlen hcl =>
      have hblk' := h.srcBlk (by rw [hcaller]; rfl)
      refine h.move ⟨⟨by rw [hcaller]; rfl, rfl⟩, Iff.rfl, rfl, rfl, rfl, rfl, rfl, rfl,
        fun _ => rfl, ?_, ?_⟩ h.tasks h.exits (fun hb => absurd hb hblk') h.report
      · rw [hcaller]
        rintro ⟨⟩
      · rintro ⟨⟩
  | acquire hcaller hlt hcl =>
      have hblk := h.srcBlk (by rw [hcaller]; rfl)
      refine h.move ⟨⟨by rw [hcaller]; rfl, rfl⟩, Iff.rfl, rfl, rfl, rfl, rfl, rfl, rfl,
        fun _ => rfl, ?_, ?_⟩ h.tasks h.exits (fun hb => absurd hb hblk) h.report
      · rw [hcaller]
        rintro ⟨⟩
      · rintro ⟨⟩
  | closeSem hcaller =>
      have hblk := h.srcBlk (by rw [hcaller]; rfl)
      have hph : s.phase = 0 := by rw [phase_of_some hblk, hcaller]; rfl
      exact h.close (k := 0) (by rw [hcaller]; rfl) (by rw [hcaller]; rfl) (by rw [hcaller]; rintro ⟨⟩)
        rfl (by rintro ⟨⟩) (by simp) (by rw [h.inn, hph]; simp) (by rw [h.out, hph]; simp) (by simp) _ rfl
  | closeIn hcaller =>
      have hblk := h.srcBlk (by rw [hcaller]; rfl)
      have hph : s.phase = 1 := by rw [phase_of_some hblk, hcaller]; rfl
      exact h.close (k := 1) (by rw [hcaller]; rfl) (by rw [hcaller]; rfl) (by rw [hcaller]; rintro ⟨⟩)
        rfl (by rintro ⟨⟩) (by rw [h.sem, hph]; simp) (by simp) (by rw [h.out, hph]; simp) (by simp) _ rfl
  | wgWait hcaller hall =>
      have hblk := h.srcBlk (by rw [hcaller]; rfl)
      have hph : s.phase = 2 := by rw [phase_of_some hblk, hcaller]; rfl
      exact h.close (k := 2) (by rw [hcaller]; rfl) (by rw [hcaller]; rfl) (by rw [hcaller]; rintro ⟨⟩)
        rfl (by rintro ⟨⟩) (by rw [h.sem, hph]; simp) (by rw [h.inn, hph]; simp) (by simp)
        (fun _ => hall) _ rfl
  | recvClosed hcaller hsyn =>
      rw [h.synWait_open hcaller] at hsyn
      cases hsyn
  | join hcaller hsyn =>
      have hblk := h.srcBlk (by rw [hcaller]; rfl)
      have hph : s.phase = 3 := by rw [phase_of_some hblk, hcaller]; rfl
      have hdone := h.syn.mp hsyn
      have herr : (if s.report then s.err else s.err.or (some (.const .errClosed))) ≠ none := by
        split_ifs with hr
        · exact h.report hr
        · rw [ne_eq, Option.or_eq_none_iff]
          rintro ⟨_, ⟨⟩⟩
      refine ⟨?_, ?_, ?_, h.syn, ?_, ?_, ?_, ?_, fun _ => herr, ?_, ?_, ?_, ?_⟩
      · exact iff_of_true (h.sem.mpr (by omega)) (by decide : 1 ≤ 4)
      · exact iff_of_true (h.inn.mpr (by omega)) (by decide : 2 ≤ 4)
      · exact iff_of_true (h.out.mpr (by omega)) (by decide : 3 ≤ 4)
      · exact fun _ => h.tasks (by omega)
      · exact fun _ _ _ => (by decide : 2 ≤ 4)
      · exact fun _ => (by decide : 3 ≤ 4)
      · exact fun _ => ⟨hdone, herr, rfl⟩
      · intro f hf
        have := (h.flush f hf).1
        rw [hcaller] at this
        cases this
      · rintro ⟨⟩
      · intro hl
        have hl' : s.loop = .synSend := hl
        rw [hdone] at hl'
        cases hl'
      · exact fun _ => by rintro ⟨⟩
  | @sendIn i k b t hcaller hblk hi hloc hcl =>
      have hblk' : s.srcBlk ≠ none := by
        rw [hblk]
        rintro ⟨⟩
      have hph : s.phase = 0 := by rw [phase_of_some hblk', hcaller]; rfl
      have h2 : ∀ t' ∈ s.tasks.set i { t with loc := .check ⟨s.srcIdx, b,
          if c.opts.blockLinked then s.dict else none⟩ }, t'.loc = .done → 2 ≤ s.phase :=
        Pool.forall_set h.exits (by rintro ⟨⟩)
      refine h.move ⟨⟨by rw [hcaller]; rfl, closing_resumeAt k⟩, ?_, rfl, rfl, rfl, rfl, rfl, rfl,
        fun _ => rfl, ?_, resumeAt_ne_synWait k⟩ (fun h3 => ?_) (fun t ht hd => ?_) (by rintro ⟨⟩)
        h.report
      · exact iff_of_false (by rintro ⟨⟩) hblk'
      · rw [hcaller]
        rintro ⟨⟩
      · omega
      · rcases List.mem_append.mp ht with ht | ht
        · exact h2 t ht hd
        · unfold spawned at ht
          split_ifs at ht
          · rw [List.mem_singleton.mp ht] at hd
            cases hd
          · cases ht
  -- the tasks
  | exit hi hloc hcl =>
      exact ⟨h.sem, h.inn, h.out, h.syn,
        fun h3 => absurd h3 (h.phase_lt hi (by rw [hloc]; rintro ⟨⟩)),
        Pool.forall_set h.exits (fun _ => h.inn.mp hcl), h.loop, h.after, h.report, h.flush,
        h.waits, h.replies, h.starts⟩
  | skip hi hloc | compress hi hloc | freeAsk hi hloc | release hi hloc =>
      exact ⟨h.sem, h.inn, h.out, h.syn,
        fun h3 => absurd h3 (h.phase_lt hi (by rw [hloc]; rintro ⟨⟩)),
        Pool.forall_set h.exits (by rintro ⟨⟩), h.loop, h.after, h.report, h.flush, h.waits,
        h.replies, h.starts⟩
  | freeNow hi hloc | freeSend hi hloc =>
      exact ⟨h.sem, h.inn, h.out, h.syn,
        fun h3 => absurd h3 (h.phase_lt hi (by rw [hloc]; rintro ⟨⟩)),
        Pool.forall_set h.exits (fun hd => absurd hd (by apply afterFree_ne_done)), h.loop, h.after,
        h.report, h.flush, h.waits, h.replies, h.starts⟩
  -- the write loop, with another thread
  | @sendOut i t b hi hloc hloop hcl =>
      have hmain : Phases ({ s with loop := .got b } : AsyncWriter Z) :=
        h.main ⟨rfl, rfl, rfl, rfl, rfl, rfl, rfl, rfl, rfl, fun _ => rfl⟩ (by rw [hloop]; rintro ⟨⟩)
          rfl rfl (by rintro ⟨⟩) (by rintro ⟨⟩)
      exact ⟨h.sem, h.inn, h.out, hmain.syn,
        fun h3 => absurd h3 (h.phase_lt hi (by rw [hloc]; rintro ⟨⟩)),
        Pool.forall_set h.exits (by rintro ⟨⟩), hmain.loop, hmain.after, h.report, h.flush,
        h.waits, hmain.replies, hmain.starts⟩
  | synSend hcaller hloop hcl =>
      have hblk := h.srcBlk (by rw [hcaller]; rfl)
      have hph : s.phase = 0 := by rw [phase_of_some hblk, hcaller]; rfl
      have hph' : ({ s with caller := .synWait, loop := .reply, flushIdx := some s.srcIdx }
        : AsyncWriter Z).phase = s.phase := by rw [hph]; exact if_neg hblk
      refine ⟨?_, ?_, ?_, ?_, ?_, ?_, ?_, fun hb => absurd hb hblk, h.report, ?_, fun _ => rfl, ?_, ?_⟩
      · rw [hph']
        exact h.sem
      · rw [hph']
        exact h.inn
      · rw [hph']
        exact h.out
      · exact iff_of_false (by rw [hcl]; exact Bool.false_ne_true) (by rintro ⟨⟩)
      · rw [hph']
        exact h.tasks
      · rw [hph']
        exact h.exits
      · rintro ⟨⟩
      · intro f hf
        exact ⟨rfl, (Option.some.inj hf).symm⟩
      · exact fun _ => rfl
      · rintro ⟨⟩
  | synReply hcaller hloop hcl =>
      have hblk := h.srcBlk (by rw [hcaller]; rfl)
      have hph : s.phase = 0 := by rw [phase_of_some hblk, hcaller]; rfl
      have hph' : ({ s with caller := .flushEnd, loop := .select, flushIdx := none }
        : AsyncWriter Z).phase = s.phase := by rw [hph]; exact if_neg hblk
      refine ⟨?_, ?_, ?_, ?_, ?_, ?_, ?_, fun hb => absurd hb hblk, h.report, ?_, ?_, ?_, ?_⟩
      · rw [hph']
        exact h.sem
      · rw [hph']
        exact h.inn
      · rw [hph']
        exact h.out
      · exact iff_of_false (by rw [hcl]; exact Bool.false_ne_true) (by rintro ⟨⟩)
      · rw [hph']
        exact h.tasks
      · rw [hph']
        exact h.exits
      · rintro ⟨⟩
      · rintro f ⟨⟩
      · rintro ⟨⟩
      · rintro ⟨⟩
      · rintro ⟨⟩
  | synReplyJoin hcaller hloop hcl =>
      have := h.replies hloop
      rw [hcaller] at this
      cases this
  -- the write loop
  | headerFail hloop hwr =>
      exact h.main ⟨rfl, rfl, rfl, rfl, rfl, rfl, rfl, rfl, rfl, fun _ => rfl⟩
        (by rw [hloop]; rintro ⟨⟩) rfl rfl (by rintro ⟨⟩) (fun _ => h.starts (by rw [hloop]; rfl))
  | headerErr hloop =>
      exact h.main ⟨rfl, rfl, rfl, rfl, rfl, rfl, rfl, rfl, rfl,
        err_step (.headerErr (c := c) hloop)⟩
        (by rw [hloop]; rintro ⟨⟩) rfl rfl (by rintro ⟨⟩) (by rintro ⟨⟩)
  | outClosed hloop hcl =>
      refine h.turn ⟨rfl, rfl, rfl, rfl, rfl, rfl, rfl, rfl, rfl, fun _ => rfl⟩
        (by rw [hloop]; rintro ⟨⟩) ?_ (fun _ => h.out.mp hcl) (by rintro ⟨⟩) (by rintro ⟨⟩)
      show s.synClosed = true ↔ _
      rw [h.syn, hloop]
      exact iff_of_false (by rintro ⟨⟩) (by rintro ⟨⟩)
  | setErr hloop =>
      exact h.main ⟨rfl, rfl, rfl, rfl, rfl, rfl, rfl, rfl, rfl, err_step (.setErr (c := c) hloop)⟩
        (by rw [hloop]; rintro ⟨⟩) rfl rfl (by rintro ⟨⟩) (by rintro ⟨⟩)
  | reply hloop hflush _ =>
      exact h.main ⟨rfl, rfl, rfl, rfl, rfl, rfl, rfl, rfl, rfl, fun _ => rfl⟩
        (by rw [hloop]; rintro ⟨⟩) rfl rfl (fun _ => (h.flush _ hflush).1) (by rintro ⟨⟩)
  | header hloop | gotDrop hloop | gotPark hloop | gotErr hloop | gotWrite hloop | write hloop
  | crash hloop | kickDrop hloop | kickErr hloop | kickFail hloop | kickNext hloop | kickLast hloop
  | noReply hloop =>
      exact h.main ⟨rfl, rfl, rfl, rfl, rfl, rfl, rfl, rfl, rfl, fun _ => rfl⟩
        (by rw [hloop]; rintro ⟨⟩) rfl rfl (by rintro ⟨⟩) (by rintro ⟨⟩)
  | drainKick hloop =>
      exact h.tail ⟨rfl, rfl, rfl, rfl, rfl, rfl, rfl, rfl, rfl, fun _ => rfl⟩
        (by rw [hloop]; rintro ⟨⟩) rfl (by rw [hloop]; rfl) (by show s.loop ≠ _; rw [hloop]; rintro ⟨⟩)
        (by show s.loop ≠ _; rw [hloop]; rintro ⟨⟩) h.starts
  | drained hloop | hashDone hloop | trailer hloop | trailerFail hloop =>
      exact h.tail ⟨rfl, rfl, rfl, rfl, rfl, rfl, rfl, rfl, rfl, fun _ => rfl⟩
        (by rw [hloop]; rintro ⟨⟩) rfl (by rw [hloop]; rfl) (by rintro ⟨⟩) (by rintro ⟨⟩) (by rintro ⟨⟩)
  | finish hloop | abort hloop | hashWait hloop =>
      refine h.tail ⟨rfl, rfl, rfl, rfl, rfl, rfl, rfl, rfl, rfl, fun _ => rfl⟩
        (by rw [hloop]; rintro ⟨⟩) rfl (by rw [hloop]; rfl) ?_ ?_ ?_
      · show (if _ then _ else _) ≠ Loop.done
        split_ifs <;> rintro ⟨⟩
      · show (if _ then _ else _) ≠ Loop.synSend
        split_ifs <;> rintro ⟨⟩
      · show (if _ then _ else _ : Loop).starting = true → _
        split_ifs <;> rintro ⟨⟩
  | trailerErr hloop =>
      exact h.tail ⟨rfl, rfl, rfl, rfl, rfl, rfl, rfl, rfl, rfl,
        err_step (.trailerErr (c := c) hloop)⟩
        (by rw [hloop]; rintro ⟨⟩) rfl (by rw [hloop]; rfl) (by rintro ⟨⟩) (by rintro ⟨⟩) (by rintro ⟨⟩)
  | closeSyn hloop =>
      exact h.turn ⟨rfl, rfl, rfl, rfl, rfl, rfl, rfl, rfl, rfl, fun _ => rfl⟩
        (by rw [hloop]; rintro ⟨⟩) (iff_of_true rfl rfl) (fun _ => h.loop (by rw [hloop]; rfl))
        (by rintro ⟨⟩) (by rintro ⟨⟩)
  -- the hasher
  | _ =>
      exact ⟨h.sem, h.inn, h.out, h.syn, h.tasks, h.exits, h.loop, h.after, h.report, h.flush,
        h.waits, h.replies, h.starts⟩

theorem phases_newAsyncWriter (Z : Clz4) (o : OptsT) (script : List WCall) :
    Phases (newAsyncWriter Z o script) := by
  have hrecv : ∀ t ∈ (newAsyncWriter Z o script).tasks, t.loc = .done → 2 ≤ 0 := by
    intro t ht hd
    rw [List.eq_of_mem_replicate ht] at hd
    cases hd
  refine ⟨?_, ?_, ?_, ?_, fun h => ?_, hrecv, ?_, ?_, ?_, ?_, ?_, ?_, ?_⟩
  · exact iff_of_false Bool.false_ne_true (by decide : ¬ 1 ≤ 0)
  · exact iff_of_false Bool.false_ne_true (by decide : ¬ 2 ≤ 0)
  · exact iff_of_false Bool.false_ne_true (by decide : ¬ 3 ≤ 0)
  · exact iff_of_false Bool.false_ne_true (by rintro ⟨⟩)
  · exact absurd h (by decide : ¬ 3 ≤ 0)
  · rintro ⟨⟩
  · rintro ⟨⟩
  · rintro ⟨⟩
  · rintro f ⟨⟩
  · rintro ⟨⟩
  · rintro ⟨⟩
  · exact fun _ => by rintro ⟨⟩

end AsyncWriter

end Plz4
