/-
Runs of the asynchronous writer in which the destination takes everything and every
block is made. The write loop never gets to set an error; what error there is comes from
the caller's readers.

The loop of `ReadFrom` ends if the steps of all threads until it is left are bounded and
there is always one to take. A source that repeats `io.ErrUnexpectedEOF` takes away the
bound, and a writer without tasks the next step.
-/
import Plz4.AsyncWriterSpec
import Plz4.AsyncWriterTasks
import Plz4.SparseContent

set_option autoImplicit false

namespace Plz4

/-- The write loop is on its way to set an error. -/
def Loop.failing : Loop → Bool
  | .setErr _ _ | .kick _ (.err _) | .kick _ (.wrote (some _)) => true
  | _ => false

namespace AsyncWriter

variable {Z : Clz4} {c : WriterCfg} {s s' : AsyncWriter Z} {a : Act}

/-- Every block compressed so far was made. -/
def AllMade (s : AsyncWriter Z) : Prop := ∀ e ∈ s.encodes, e.ret.isOk = true

theorem allMade_of_step (hstep : Step c s a s') (h : AllMade s') : AllMade s := by
  obtain ⟨-, es, -, hes⟩ := logs_step hstep
  intro e he
  exact h e (hes ▸ List.mem_append_left es he)

/-- A made block in flight carries no error. -/
theorem OutOk.err_none (hmade : AllMade s) {out : OutBlk} (h : OutOk s.blks s.encodes out) :
    out.err = none := by
  obtain ⟨e, he, -, -, hret⟩ := h
  have hisok := hmade e he
  split at hret
  · exact hret.1
  · rename_i hx
    rw [hx] at hisok
    cases hisok

/-- **The write loop stays calm.** -/
theorem failing_step (hwr : c.wr = .ok) (hv : Values c s) (hmade : AllMade s)
    (hstep : Step c s a s') (h : s.loop.failing = false) : s'.loop.failing = false := by
  cases hstep with
  | @gotErr b e hloop herr hidx he =>
      have hnone := (hv.outs.loop b (by rw [hloop]; rfl)).err_none hmade
      rw [he] at hnone
      cases hnone
  | @write b blk n werr calls hloop hblk hwrite =>
      rw [hwr, wrWrite_ok, Prod.mk.injEq, Prod.mk.injEq] at hwrite
      obtain ⟨-, rfl, -⟩ := hwrite
      rfl
  | kickErr hloop | kickFail hloop =>
      rw [hloop] at h
      cases h
  | headerFail hloop hwrite =>
      rw [hwr, writeHeader, wrWrite_ok, Prod.mk.injEq, Prod.mk.injEq] at hwrite
      cases hwrite.2.1
  | trailerFail hloop hwrite =>
      rw [hwr, wrWrite_ok, Prod.mk.injEq, Prod.mk.injEq] at hwrite
      cases hwrite.2.1
  | finish | abort | hashWait =>
      show (if _ then _ else _ : Loop).failing = false
      split_ifs <;> rfl
  | sendOut | synSend | synReply | synReplyJoin | header | headerErr | outClosed | gotDrop | gotPark
  | gotWrite | crash | kickDrop | kickNext | kickLast | setErr | reply | noReply | drained
  | hashDone | trailer | trailerErr | closeSyn => rfl
  | _ => exact h

/-- Then only the caller sets an error: the one of a reader, or that the writer is closed. -/
theorem err_calm (h : s.loop.failing = false) (hstep : Step c s a s') :
    s'.err = s.err ∨ (∃ e n, s.caller = .readErr e n) ∨ s.caller = .synJoin ∧ s'.srcBlk = none := by
  cases hstep with
  | readErr hcaller => exact .inr (.inl ⟨_, _, hcaller⟩)
  | join hcaller | synReplyJoin hcaller => exact .inr (.inr ⟨hcaller, rfl⟩)
  | headerErr hloop | setErr hloop | trailerErr hloop =>
      rw [hloop] at h
      cases h
  | _ => exact .inl rfl

/-! ## The loop of `ReadFrom` -/

/-- A step while the caller is in the loop of `ReadFrom`. -/
def stepIn (c : WriterCfg) (s : AsyncWriter Z) (a : Act) : Option (AsyncWriter Z) :=
  if s.caller.rd.isSome then step c s a else none

/-- The loop the caller is in ends: there is a bound on the steps, of all threads, before
it is left, and until then some thread can move. -/
structure LoopEnds (c : WriterCfg) (s : AsyncWriter Z) : Prop where
  bounded : ∃ n, ∀ as s', Machine.run (stepIn c) s as = some s' → as.length ≤ n
  moves : ∀ as s', Machine.run (stepIn c) s as = some s' → s'.caller.rd.isSome = true →
    ∃ a, (step c s' a).isSome = true

theorem stepIn_spec (hstep : stepIn c s a = some s') :
    (∃ r, s.caller.rd = some r) ∧ Step c s a s' := by
  unfold stepIn at hstep
  split_ifs at hstep with hrd
  exact ⟨Option.isSome_iff_exists.mp hrd, step_spec hstep⟩

/-- On a reader that does not repeat `io.ErrUnexpectedEOF` the steps are bounded. -/
theorem bounded_of_ne (hr : Room c s) (he : ∀ r, s.caller.rd = some r → r.err ≠ .unexpectedEOF) :
    ∃ n, ∀ as s', Machine.run (stepIn c) s as = some s' → as.length ≤ n := by
  have hlower : ∀ (s : AsyncWriter Z) a s', True →
      (Room c s ∧ ∀ r, s.caller.rd = some r → r.err ≠ .unexpectedEOF) → stepIn c s a = some s' →
      (Room c s' ∧ ∀ r, s'.caller.rd = some r → r.err ≠ .unexpectedEOF) ∧ s'.fuel < s.fuel := by
    rintro s a s' - ⟨hr, he⟩ hstep
    obtain ⟨⟨r, hrd⟩, hst⟩ := stepIn_spec hstep
    refine ⟨⟨hr.step hst, fun r' hrd' => ?_⟩, fuel_step hr he hst⟩
    rcases rd_step hst hrd with hnone | ⟨r'', hsome, herr⟩
    · rw [hnone] at hrd'
      cases hrd'
    · rw [hsome] at hrd'
      obtain rfl := Option.some.inj hrd'
      rw [herr]
      exact he r hrd
  refine ⟨s.fuel, fun as s' hrun => ?_⟩
  have hlen := Machine.length_run_le fuel hlower (fun _ _ => trivial) ⟨hr, he⟩ hrun
  omega

/-- The loop is not kept waiting for a task: there is one, or the source is used up and the
buffer does not fill. -/
def Fed (s : AsyncWriter Z) : Prop :=
  s.tasks ≠ [] ∨ ∃ r n, s.caller = .readFrom r n ∧ r.data = []

/-- A source that is used up stays so, and hands no block over. -/
theorem Fed.step (h : Fed s) (hroom : Room c s) (hstep : Step c s a s')
    (hrd : s'.caller.rd.isSome = true) : Fed s' := by
  rcases h with htasks | ⟨r, n, hcaller, hdata⟩
  · exact .inl (tasks_step hstep htasks)
  · right
    cases hstep with
    | loc hl =>
        cases hl with
        | report => cases hrd
        | @readFull r₀ r' n' d hcaller' _ hread =>
            -- there is room in the buffer, and nothing to fill it with
            have hlt := hroom.lt (by rw [hcaller]; rfl)
            have hle := (Rd.readFull_none hread).2.1
            rw [hcaller'] at hcaller
            cases hcaller
            rw [hdata, List.length_nil] at hle
            omega
        | @readShort r₀ r' n' d _ _ hread =>
            exact ⟨r', n' + d.length, rfl, (Rd.readFull_some hread).2.2.1⟩
        | readEof | readFail => cases hrd
        | write hcaller' | readFrom hcaller' | flushBlk hcaller' | flushNone hcaller'
        | flushSyn hcaller' | closeBlk hcaller' | close hcaller' | writeFull hcaller'
        | writeMore hcaller' =>
            rw [hcaller'] at hcaller
            cases hcaller
    | readErr hcaller' | queue hcaller' | acquire hcaller' | sendIn hcaller' | closeSem hcaller'
    | closeIn hcaller' | wgWait hcaller' | recvClosed hcaller' | join hcaller' | synSend hcaller'
    | synReply hcaller' | synReplyJoin hcaller' =>
        rw [hcaller'] at hcaller
        cases hcaller
    | _ => exact ⟨r, n, hcaller, hdata⟩

/-- Then some thread can move. -/
theorem Fed.moves (h : Fed s) (hs : Sound c s) (hpar : 0 < c.opts.nParallel)
    (hcrash : ¬ s.Crashed) (hrd : s.caller.rd.isSome = true) :
    ∃ a, (AsyncWriter.step c s a).isSome = true := by
  rcases h with htasks | ⟨r, n, hcaller, -⟩
  · refine hs.moves hpar htasks hcrash (fun hfin => ?_)
    rw [hfin.1] at hrd
    cases hrd
  · refine ⟨.caller, ?_⟩
    simp only [AsyncWriter.step, callerStep, hcaller, Option.isSome_some]

/-- **The loop ends** on a reader that does not repeat `io.ErrUnexpectedEOF`. -/
theorem loopEnds_of_ne (hs : Sound c s) (hr : Room c s) (hpar : 0 < c.opts.nParallel) (hf : Fed s)
    (hcrash : ∀ as t, Machine.run (stepIn c) s as = some t → ¬ t.Crashed)
    (he : ∀ r, s.caller.rd = some r → r.err ≠ .unexpectedEOF) : LoopEnds c s := by
  refine ⟨bounded_of_ne hr he, fun as s' hrun hrd => ?_⟩
  have hinv : Sound c s' ∧ Room c s' ∧ (s'.caller.rd.isSome = true → Fed s') := by
    refine Machine.invariant_run
      (I := fun s : AsyncWriter Z => Sound c s ∧ Room c s ∧ (s.caller.rd.isSome = true → Fed s))
      (fun s a s' h hstep => ?_) ⟨hs, hr, fun _ => hf⟩ hrun
    obtain ⟨⟨r, hsome⟩, hst⟩ := stepIn_spec hstep
    have hfed := h.2.2 (by rw [hsome]; rfl)
    exact ⟨h.1.step hst, h.2.1.step hst, fun hrd => hfed.step h.2.1 hst hrd⟩
  exact (hinv.2.2 hrd).moves hinv.1 hpar (hcrash as s' hrun) hrd

/-! ## Where it does not end -/

/-- The caller is in the loop with a reader that repeats `io.ErrUnexpectedEOF`, and no
error is set. -/
structure Spins (s : AsyncWriter Z) : Prop where
  err : s.err = none
  rd : ∃ r, s.caller.rd = some r ∧ r.err = .unexpectedEOF

/-- A pass on such a reader comes back to the head of the loop. -/
theorem Spins.step (h : Spins s) (hcalm : s.loop.failing = false)
    (hstep : Step c s a s') : Spins s' := by
  obtain ⟨r, hrd, hr⟩ := h.rd
  refine ⟨?_, ?_⟩
  · rcases err_calm hcalm hstep with heq | ⟨e, n, hcaller⟩ | ⟨hcaller, -⟩
    · rw [heq]
      exact h.err
    · rw [hcaller] at hrd
      cases hrd
    · rw [hcaller] at hrd
      cases hrd
  · rcases rd_step hstep hrd with hnone | ⟨r', hsome, herr⟩
    · exfalso
      -- only the end of the source, another error, or the error state lead out
      cases hstep with
      | loc hl =>
          cases hl with
          | report hrep =>
              cases hrep with
              | readFrom hcaller hne => exact hne h.err
              | write hcaller | report hcaller | flushEnd hcaller | flush hcaller | close hcaller =>
                  rw [hcaller] at hrd
                  cases hrd
          | readFull => rw [rd_flushAt] at hnone; cases hnone
          | readShort => cases hnone
          | @readEof r₀ r' n d hcaller _ hread =>
              rw [hcaller] at hrd
              obtain rfl := Option.some.inj hrd
              rcases (Rd.readFull_some hread).2.2.2.2 with ⟨-, -, heof⟩ | ⟨-, heq⟩
              · cases heof
              · rw [hr] at heq
                cases heq
          | @readFail r₀ r' n d e hcaller _ hne hread =>
              rw [hcaller] at hrd
              obtain rfl := Option.some.inj hrd
              rcases (Rd.readFull_some hread).2.2.2.2 with ⟨-, -, heq⟩ | ⟨-, heq⟩
              · exact hne.1 heq
              · rw [hr] at heq
                exact hne.1 heq
          | write hcaller | readFrom hcaller | flushBlk hcaller | flushNone hcaller
          | flushSyn hcaller | closeBlk hcaller | close hcaller | writeFull hcaller
          | writeMore hcaller =>
              rw [hcaller] at hrd
              cases hrd
      | @queue k _ _ hcaller | @acquire k hcaller =>
          rw [hcaller] at hrd
          rcases k with _ | _ | _ | _
          · cases hrd
          · cases hnone
          · cases hrd
          · cases hrd
      | @sendIn _ k _ _ hcaller =>
          rw [hcaller] at hrd
          rcases k with _ | _ | _ | _
          · cases hrd
          · cases hnone
          · cases hrd
          · cases hrd
      | readErr hcaller | closeSem hcaller | closeIn hcaller | wgWait hcaller | recvClosed hcaller
      | join hcaller | synSend hcaller | synReply hcaller | synReplyJoin hcaller =>
          rw [hcaller] at hrd
          cases hrd
      | _ =>
          change s.caller.rd = none at hnone
          rw [hnone] at hrd
          cases hrd
    · exact ⟨r', hsome, by rw [herr, hr]⟩

/-- It spins while nothing else goes wrong. -/
structure Spinning (c : WriterCfg) (s : AsyncWriter Z) : Prop where
  sound : Sound c s
  room : Room c s
  fed : Fed s
  calm : s.loop.failing = false
  spins : Spins s

section Spinning

variable (hwr : c.wr = .ok) (hmade : MakesAll Z c.opts)

include hmade

include hwr in
theorem Spinning.step (h : Spinning c s) (hstep : Step c s a s') : Spinning c s' := by
  have hspins := h.spins.step h.calm hstep
  obtain ⟨r, hrd, -⟩ := hspins.rd
  exact ⟨h.sound.step hstep, h.room.step hstep, h.fed.step h.room hstep (by rw [hrd]; rfl),
    failing_step hwr h.sound.values (h.sound.values.encodes_ok hmade) hstep h.calm, hspins⟩

theorem Spinning.moves (h : Spinning c s) (hpar : 0 < c.opts.nParallel) :
    ∃ a, (stepIn c s a).isSome = true := by
  obtain ⟨r, hrd, -⟩ := h.spins.rd
  obtain ⟨a, ha⟩ := h.fed.moves h.sound hpar
    (h.sound.not_crashed (h.sound.values.encodes_ok hmade)) (by rw [hrd]; rfl)
  refine ⟨a, ?_⟩
  unfold stepIn
  rw [hrd]
  exact ha

include hwr in
/-- There is no end to it. -/
theorem Spinning.not_loopEnds (h : Spinning c s) (hpar : 0 < c.opts.nParallel) :
    ¬ LoopEnds c s := by
  intro hends
  obtain ⟨n, hbound⟩ := hends.bounded
  have hkeep : ∀ (s : AsyncWriter Z) a s', Spinning c s → stepIn c s a = some s' →
      Spinning c s' := fun s a s' h hstep => h.step hwr hmade (stepIn_spec hstep).2
  have hmove : ∀ s : AsyncWriter Z, Spinning c s → ∃ a, (stepIn c s a).isSome = true :=
    fun s h => h.moves hmade hpar
  obtain ⟨as, s', hrun, hlen⟩ := Machine.exists_run_length hkeep hmove h (n + 1)
  have := hbound as s' hrun
  omega

end Spinning

/-- A caller that makes one call, `ReadFrom`, and has entered it. -/
theorem spinning_readFrom (Z : Clz4) {c : WriterCfg} (hpar : 0 < c.opts.nParallel) {r : Rd}
    (hfed : 0 < initTasks c.opts ∨ r.data = []) (hr : r.err = .unexpectedEOF) :
    ∃ s : AsyncWriter Z, Machine.run (step c) (newAsyncWriter Z c.opts [.readFrom r]) [.caller]
        = some s ∧ s.caller = .readFrom r 0 ∧ Spinning c s := by
  have hrun : Machine.run (step c) (newAsyncWriter Z c.opts [.readFrom r]) [.caller]
      = some ((newAsyncWriter Z c.opts [.readFrom r]).call (.readFrom r)) := rfl
  refine ⟨_, hrun, rfl, sound_run hpar hrun, room_run hrun, ?_, rfl, rfl, r, rfl, hr⟩
  exact hfed.imp (fun htasks => tasks_run htasks hrun) (fun hdata => ⟨r, 0, rfl, hdata⟩)

/-- Where every block is made, the write loop does not crash on the way. -/
theorem not_crashed_in (hs : Sound c s) (hmade : MakesAll Z c.opts) {as : List Act}
    (hrun : Machine.run (stepIn c) s as = some s') : ¬ s'.Crashed := by
  have hsound : Sound c s' := Machine.invariant_run
    (fun _ _ _ h hstep => Sound.step h (stepIn_spec hstep).2) hs hrun
  exact hsound.not_crashed (hsound.values.encodes_ok hmade)

/-! ## Without a task -/

/-- A block that no task is there for is not handed over. -/
theorem sendIn_stays {k : Then} (htasks : s.tasks = []) (hcaller : s.caller = .sendIn k)
    (hstep : Step c s a s') : s'.tasks = [] ∧ s'.caller = .sendIn k := by
  cases hstep with
  | loc hl =>
      have hstarts := hl.starts
      rw [hcaller] at hstarts
      cases hstarts
  | readErr hcaller' | queue hcaller' | acquire hcaller' | closeSem hcaller' | closeIn hcaller'
  | wgWait hcaller' | recvClosed hcaller' | join hcaller' | synSend hcaller' | synReply hcaller'
  | synReplyJoin hcaller' =>
      rw [hcaller'] at hcaller
      cases hcaller
  | sendIn _ _ hi | exit hi | skip hi | compress hi | freeAsk hi | freeNow hi | freeSend hi
  | release hi | sendOut hi =>
      rw [htasks] at hi
      cases hi
  | _ => exact ⟨htasks, hcaller⟩

/-- A loop that waits with a block for a task that is not there does not end. -/
theorem not_loopEnds_of_sendIn {r : Rd} {n : ℕ} (htasks : s.tasks = [])
    (hcaller : s.caller = .sendIn (.readFrom r n)) : ¬ LoopEnds c s := by
  intro hends
  obtain ⟨m, hbound⟩ := hends.bounded
  -- the states of its runs have moves, and all look like this one
  let I : AsyncWriter Z → Prop := fun t =>
    (t.tasks = [] ∧ t.caller = .sendIn (.readFrom r n)) ∧ ∃ as, Machine.run (stepIn c) s as = some t
  have hkeep : ∀ t a t', I t → stepIn c t a = some t' → I t' := by
    rintro t a t' ⟨⟨ht, hc⟩, as, hrun⟩ hstep
    refine ⟨sendIn_stays ht hc (stepIn_spec hstep).2, as ++ [a], ?_⟩
    exact Machine.run_append.mpr ⟨t, hrun, (Machine.run_singleton t a).trans hstep⟩
  have hmove : ∀ t, I t → ∃ a, (stepIn c t a).isSome = true := by
    rintro t ⟨⟨-, hc⟩, as, hrun⟩
    have hrd : t.caller.rd.isSome = true := by rw [hc]; rfl
    obtain ⟨a, ha⟩ := hends.moves as t hrun hrd
    exact ⟨a, by rwa [stepIn, if_pos hrd]⟩
  obtain ⟨as, s', hrun, hlen⟩ :=
    Machine.exists_run_length hkeep hmove (s := s) ⟨⟨htasks, hcaller⟩, [], rfl⟩ (m + 1)
  have := hbound as s' hrun
  omega

theorem LoopEnds.run (h : LoopEnds c s) {as : List Act}
    (hrun : Machine.run (stepIn c) s as = some s') : LoopEnds c s' := by
  obtain ⟨n, hbound⟩ := h.bounded
  refine ⟨⟨n, fun bs t hbs => ?_⟩, fun bs t hbs hrd => ?_⟩
  · have hlen := hbound (as ++ bs) t (Machine.run_append.mpr ⟨s', hrun, hbs⟩)
    rw [List.length_append] at hlen
    omega
  · exact h.moves (as ++ bs) t (Machine.run_append.mpr ⟨s', hrun, hbs⟩) hrd

/-- On its own the caller brings a block up to the send. -/
theorem exists_sendIn {r : Rd} {n : ℕ} {b : Blk} (hcaller : s.caller = s.flushAt (.readFrom r n))
    (hblk : s.srcBlk = some b)
    (hh : ∀ h, s.hasher = some h → h.q.length < c.opts.nParallel ∧ h.closed = false)
    (hsem : s.sem < c.opts.calcPending) (hopen : s.semClosed = false) :
    ∃ as s', Machine.run (stepIn c) s as = some s' ∧ s'.tasks = s.tasks
      ∧ s'.caller = .sendIn (.readFrom r n) := by
  unfold flushAt at hcaller
  rcases hhash : s.hasher with _ | h
  · rw [hhash] at hcaller
    refine ⟨[.caller], { s with sem := s.sem + 1, caller := .sendIn (.readFrom r n) }, ?_, rfl, rfl⟩
    simp [Machine.run_cons, stepIn, step, callerStep, hcaller, Caller.rd, hsem, hopen]
  · obtain ⟨hq, hcl⟩ := hh h hhash
    rw [hhash] at hcaller
    refine ⟨[.caller, .caller], { s with
      hasher := some { h with q := h.q ++ [.queue b] }, sem := s.sem + 1
      caller := .sendIn (.readFrom r n) }, ?_, rfl, rfl⟩
    simp [Machine.run_cons, stepIn, step, callerStep, hcaller, Caller.rd, hsem, hopen, hblk, hhash,
      hashSend, hq, hcl]

/-- A buffer that lacks one byte, and a source with one. -/
theorem hanging_readFrom (Z : Clz4) {c : WriterCfg} (hpar : 0 < c.opts.nParallel)
    (htasks : ¬ 0 < initTasks c.opts) {r : Rd} (hdata : r.data ≠ []) :
    ∃ script as, ∃ s : AsyncWriter Z,
      Machine.run (step c) (newAsyncWriter Z c.opts script) as = some s
      ∧ s.caller = .readFrom r 0 ∧ ¬ LoopEnds c s := by
  let src : Bytes := List.replicate (c.opts.bsz - 1) 0
  let s : AsyncWriter Z := { newAsyncWriter Z c.opts [.readFrom r] with
    caller := .readFrom r 0, srcBlk := some ⟨0, src⟩, results := [⟨c.opts.bsz - 1, none⟩] }
  have hbsz := c.opts.bsz_bounds.1
  have hsrc : src.length = c.opts.bsz - 1 := List.length_replicate
  have hne : src ≠ [] := by
    rw [← List.length_pos_iff, hsrc]
    omega
  have hmin : min c.opts.bsz src.length = c.opts.bsz - 1 := by omega
  have hrun : Machine.run (step c) (newAsyncWriter Z c.opts [.write src, .readFrom r])
      [.caller, .caller, .caller, .caller] = some s := by
    have hwrite : step c { newAsyncWriter Z c.opts [.write src, .readFrom r] with
          caller := .write src 0 } .caller
        = some { newAsyncWriter Z c.opts [.write src, .readFrom r] with
          caller := .write [] (c.opts.bsz - 1), srcBlk := some ⟨0, src⟩ } := by
      simp only [step, callerStep, writeStep, newAsyncWriter, cur, fill, Option.map_some,
        Option.getD_some, List.length_nil, Nat.sub_zero, hmin, Nat.zero_add, List.nil_append]
      rw [if_pos ⟨hne, trivial⟩, if_neg (by omega), ← hsrc, List.take_length, List.drop_length]
    have hcall : step c (newAsyncWriter Z c.opts [.write src, .readFrom r]) .caller
        = some { newAsyncWriter Z c.opts [.write src, .readFrom r] with caller := .write src 0 } :=
      rfl
    rw [Machine.run_cons, hcall, Option.bind_some, Machine.run_cons, hwrite]
    rfl
  refine ⟨_, _, s, hrun, rfl, fun hends => ?_⟩
  -- the byte that was lacking fills the block
  obtain ⟨r', hread, -⟩ := Rd.readFull_spec r 1
  have hone : 1 ≤ r.data.length := List.length_pos_iff.mpr hdata
  rw [Rd.fullErr, if_pos hone] at hread
  let t : AsyncWriter Z := { s with
    srcBlk := some ⟨0, src ++ r.data.take 1⟩
    caller := s.flushAt (.readFrom r' (0 + (r.data.take 1).length)) }
  have hfill : Machine.run (stepIn c) s [.caller] = some t := by
    have hroom : c.opts.bsz - s.cur.length = 1 := by
      show c.opts.bsz - src.length = 1
      omega
    rw [Machine.run_singleton, stepIn, if_pos (by rfl)]
    show some (s.readFromStep c r 0) = some t
    rw [readFromStep, if_pos (by rfl), hroom, hread]
    rfl
  obtain ⟨as, u, hu, hnone, hwait⟩ := exists_sendIn (c := c) (s := t) rfl rfl
    (by
      intro h hh
      change (if c.opts.contentChecksum then _ else _) = some h at hh
      split_ifs at hh
      obtain rfl := Option.some.inj hh
      exact ⟨hpar, rfl⟩)
    (hpar.trans_le c.opts.le_calcPending) rfl
  have hempty : t.tasks = [] := by
    show List.replicate (initTasks c.opts).toNat _ = []
    rw [Int.toNat_of_nonpos (by omega)]
    rfl
  exact not_loopEnds_of_sendIn (hnone.trans hempty) hwait ((hends.run hfill).run hu)

end AsyncWriter

/-! ## Which sources end -/

/-- An engine for linked blocks above level 1 that makes a byte of any block. -/
def byteEngine : Clz4 :=
  { litEngine with
    compressHCContinue := fun c _ n => ([(0 : UInt8)].take n, c)
    compressHCContinue_le := fun _ _ n => List.length_take_le n _ }

theorem makesAll_byteEngine (o : OptsT) : MakesAll byteEngine o := by
  intro cmp hreach src dict
  cases hcmp : cmp.isLinkedHC with
  | false => exact compressToBlk_isOk hreach ((OptsT.isLinkedHC_of_reach hreach).mp hcmp) src dict
  | true =>
      have hengine : cmp.engine src o.bsz dict ≠ [] := by
        cases cmp with
        | linkedHC ctx =>
            have hpos := o.bsz_pos
            show [(0 : UInt8)].take o.bsz ≠ []
            rw [List.take_of_length_le (by rw [List.length_singleton]; omega)]
            exact List.cons_ne_nil _ _
        | _ => cases hcmp
      obtain ⟨cmp', hret⟩ := compressToBlk_linkedHC hcmp hengine o.blockChecksum
      rw [hret]
      rfl

open AsyncWriter in
/-- **`ReadFrom` ends.** The loop of the asynchronous writer's `ReadFrom` ends for a source,
whatever the engine, the destination, the calls before and the schedule, as long as the
write loop does not crash, exactly if the source does not repeat `io.ErrUnexpectedEOF` and
has no bytes for a writer that has no tasks. The sparse writer's ends exactly if the source
does not repeat `io.ErrUnexpectedEOF`. -/
theorem readFrom_ends_iff (r : Rd) (o : OptsT) (hpar : 0 < o.nParallel) :
    ((∀ (Z : Clz4) (wr : WrPlan) (script : List WCall) (as : List Act) (s : AsyncWriter Z) (n : ℕ),
        Machine.run (step ⟨o, wr⟩) (newAsyncWriter Z o script) as = some s →
        s.caller = .readFrom r n →
        (∀ bs t, Machine.run (stepIn ⟨o, wr⟩) s bs = some t → ¬ t.Crashed) → LoopEnds ⟨o, wr⟩ s)
      ↔ r.err ≠ .unexpectedEOF ∧ (SizeFits o ∨ r.data = []))
    ∧ ((∀ (plan : WrPlan) (caps : Sparse.Caps) (w : Sparse.Writer) (n : ℕ),
        ∃ fuel, (Sparse.Writer.readFrom plan caps fuel w r n).isSome = true)
      ↔ r.err ≠ .unexpectedEOF) := by
  rw [← initTasks_pos_iff hpar]
  refine ⟨⟨fun h => ?_, fun ⟨hr, hfed⟩ Z wr script as s n hrun hcaller hcrash => ?_⟩,
    ⟨fun h hr => ?_, fun hr plan caps w n => ?_⟩⟩
  · have hmade := makesAll_byteEngine o
    have hfed : 0 < initTasks o ∨ r.data = [] := by
      by_contra hno
      obtain ⟨htasks, hdata⟩ := not_or.mp hno
      obtain ⟨script, as, s, hrun, hcaller, hnot⟩ :=
        hanging_readFrom byteEngine (c := ⟨o, .ok⟩) hpar htasks hdata
      have hs := sound_run (c := ⟨o, .ok⟩) hpar hrun
      exact hnot (h _ .ok script as s 0 hrun hcaller (fun bs t hbs => not_crashed_in hs hmade hbs))
    refine ⟨fun hr => ?_, hfed⟩
    obtain ⟨s, hrun, hcaller, hspin⟩ :=
      spinning_readFrom byteEngine (c := ⟨o, .ok⟩) hpar hfed hr
    exact hspin.not_loopEnds rfl hmade hpar (h _ .ok _ _ s 0 hrun hcaller
      (fun bs t hbs => not_crashed_in hspin.sound hmade hbs))
  · refine loopEnds_of_ne (sound_run (c := ⟨o, wr⟩) hpar hrun) (room_run (c := ⟨o, wr⟩) hrun)
      hpar ?_ hcrash (fun r' hrd => ?_)
    · exact hfed.imp (fun htasks => tasks_run (c := ⟨o, wr⟩) htasks hrun)
        (fun hdata => ⟨r, n, hcaller, hdata⟩)
    · rw [hcaller] at hrd
      obtain rfl := Option.some.inj hrd
      exact hr
  · obtain ⟨fuel, hfuel⟩ := h .ok ⟨true, none, none⟩ .new 0
    rw [Sparse.readFrom_eq_none _ fuel _ r hr 0] at hfuel
    cases hfuel
  · exact ⟨r.data.length + 1,
      Sparse.readFrom_isSome caps plan _ w r hr n (Nat.lt_succ_self _)⟩

open AsyncWriter in
theorem readFrom_ends_one_byte :
    ∃ s : AsyncWriter litEngine,
      Machine.run (step ⟨.default, .ok⟩)
          (newAsyncWriter litEngine .default [.readFrom ⟨[7], [], false, .eof⟩]) [.caller] = some s
        ∧ s.caller = .readFrom ⟨[7], [], false, .eof⟩ 0 ∧ LoopEnds ⟨.default, .ok⟩ s := by
  obtain ⟨s, hs, hcaller⟩ : ∃ s : AsyncWriter litEngine,
      Machine.run (step ⟨.default, .ok⟩)
          (newAsyncWriter litEngine .default [.readFrom ⟨[7], [], false, .eof⟩]) [.caller] = some s
        ∧ s.caller = .readFrom ⟨[7], [], false, .eof⟩ 0 := ⟨_, rfl, rfl⟩
  have hsound := sound_run (c := ⟨.default, .ok⟩) (by decide) hs
  have hends := ((readFrom_ends_iff ⟨[7], [], false, .eof⟩ .default (by decide)).1.mpr
    ⟨by decide, .inl (by rintro sz ⟨⟩)⟩) litEngine .ok _ _ s 0 hs hcaller
    (fun bs t hbs => not_crashed_in hsound (makesAll_of_opts (.inl rfl)) hbs)
  exact ⟨s, hs, hcaller, hends⟩

/-- A source without a byte that returns `(0, io.ErrUnexpectedEOF)` on every read. -/
def unexpectedRd : Rd := ⟨[], [], false, .unexpectedEOF⟩

open AsyncWriter in
/-- Neither loop ends on it. -/
theorem readFrom_unexpectedEOF_spins :
    (∃ s : AsyncWriter litEngine,
      Machine.run (step ⟨.default, .ok⟩) (newAsyncWriter litEngine .default [.readFrom unexpectedRd])
          [.caller] = some s ∧ s.caller = .readFrom unexpectedRd 0 ∧ ¬ LoopEnds ⟨.default, .ok⟩ s)
    ∧ ¬ ∃ fuel, (Sparse.Writer.readFrom .ok ⟨true, none, none⟩ fuel .new unexpectedRd 0).isSome
        = true := by
  constructor
  · obtain ⟨s, hrun, hcaller, hspin⟩ := spinning_readFrom litEngine (c := ⟨.default, .ok⟩)
      (by decide) (r := unexpectedRd) (.inr rfl) rfl
    exact ⟨s, hrun, hcaller, hspin.not_loopEnds rfl (makesAll_of_opts (.inl rfl)) (by decide)⟩
  · rintro ⟨fuel, hfuel⟩
    rw [Sparse.readFrom_eq_none _ fuel _ unexpectedRd rfl 0] at hfuel
    cases hfuel

end Plz4
