/-
How the asynchronous writer reports errors, on every schedule.

The error state is set by whichever thread comes first, and stays. The `report` flag says
whether the caller has been told: that, the error state and the block buffer are the state
of the protocol, and a call takes nothing once the flag is set.
-/
import Plz4.Reporting

set_option autoImplicit false

namespace Plz4

namespace AsyncWriter

variable {Z : Clz4} {c : WriterCfg} {s s' : AsyncWriter Z} {a : Act} {script₀ : List WCall}

/-! ## Where the caller is in its call -/

/-- What the caller still has to report: nothing was taken once an error was told, the reader
is that of the call, and `ReadFrom` ends without an error at the end of its source. -/
structure Courses (s : AsyncWriter Z) : Prop where
  count : s.report = true → s.caller.count = 0
  rd : ∀ r, s.caller.rd = some r → ∃ r₀ rest, s.script = .readFrom r₀ :: rest ∧ r.err = r₀.err
  ends : ∀ n, s.caller = .report n → s.err = none →
    ∃ r₀ rest, s.script = .readFrom r₀ :: rest ∧ r₀.err = .eof

/-- The reader the caller is at is that of the call it is in. -/
theorem rd_from (hstep : Step c s a s') {r : Rd} (h : s'.caller.rd = some r) :
    s'.script = s.script
      ∧ ((∃ r', s.caller.rd = some r' ∧ r.err = r'.err) ∨ ∃ rest, s.script = .readFrom r :: rest) := by
  cases hstep with
  | loc hl =>
      cases hl with
      | readFrom hcaller hscript =>
          obtain rfl := Option.some.inj h
          exact ⟨rfl, .inr ⟨_, hscript⟩⟩
      | readFull hcaller herr hread =>
          change (s.flushAt _).rd = some r at h
          rw [rd_flushAt] at h
          obtain rfl := Option.some.inj h
          exact ⟨rfl, .inl ⟨_, by rw [hcaller]; rfl, (Rd.readFull_none hread).2.2.2⟩⟩
      | readShort hcaller herr hread =>
          obtain rfl := Option.some.inj h
          exact ⟨rfl, .inl ⟨_, by rw [hcaller]; rfl, (Rd.readFull_some hread).2.2.2.1⟩⟩
      | flushBlk | closeBlk | writeFull =>
          change (s.flushAt _).rd = some r at h
          rw [rd_flushAt] at h
          cases h
      | report | write | flushNone | flushSyn | close | writeMore | readEof | readFail => cases h
  -- the reader is kept in what the caller goes on with
  | @queue k _ _ hcaller | @acquire k hcaller =>
      refine ⟨rfl, .inl ⟨r, ?_, rfl⟩⟩
      rw [hcaller]
      rcases k with _ | _ | _ | _ <;> exact h
  | @sendIn _ k _ _ hcaller =>
      refine ⟨rfl, .inl ⟨r, ?_, rfl⟩⟩
      rw [hcaller]
      rcases k with _ | _ | _ | _
      · cases h
      · exact h
      · cases h
      · cases h
  | readErr | closeSem | closeIn | wgWait | recvClosed | join | synSend | synReply | synReplyJoin =>
      cases h
  | _ => exact ⟨rfl, .inl ⟨r, h, rfl⟩⟩

theorem count_courses (h : Courses s) (hph : Phases s) (hstep : Step c s a s')
    (hrep : s'.report = true) : s'.caller.count = 0 := by
  cases hstep with
  | loc hl =>
      cases hl with
      | report | flushNone | write | readFrom | flushSyn | close => rfl
      | flushBlk | closeBlk => exact count_flushAt s _
      | writeFull _ _ herr | writeMore _ _ herr | readFull _ herr | readShort _ herr
      | readEof _ herr
      | readFail _ herr => exact absurd herr (hph.report hrep)
  | @readErr e n hcaller =>
      have hzero := h.count hrep
      rw [hcaller] at hzero
      exact hzero
  | @queue k _ _ hcaller | @acquire k hcaller =>
      have hzero := h.count hrep
      rw [hcaller] at hzero
      exact hzero
  | @sendIn _ k _ _ hcaller =>
      have hzero := h.count hrep
      rw [hcaller] at hzero
      exact (count_resumeAt k).trans hzero
  | closeSem | closeIn | wgWait | recvClosed | join | synSend | synReply | synReplyJoin => rfl
  | _ => exact h.count hrep

theorem ends_courses (h : Courses s) (hstep : Step c s a s') {n : ℕ} (hcaller' : s'.caller = .report n)
    (herr' : s'.err = none) : ∃ r₀ rest, s'.script = .readFrom r₀ :: rest ∧ r₀.err = .eof := by
  have hold : s.err = none := by
    by_contra hne
    exact hne ((err_step hstep hne).symm.trans herr')
  cases hstep with
  | loc hl =>
      cases hl with
      | readEof hcaller herr hread =>
          obtain ⟨r₀, rest, hscript, heq⟩ := h.rd _ (by rw [hcaller]; rfl)
          refine ⟨r₀, rest, hscript, ?_⟩
          rcases (Rd.readFull_some hread).2.2.2.2 with ⟨-, -, hne⟩ | ⟨-, hr⟩
          · cases hne
          · exact heq.symm.trans hr.symm
      | flushBlk | closeBlk | writeFull | readFull =>
          change s.flushAt _ = Caller.report n at hcaller'
          unfold flushAt at hcaller'
          split_ifs at hcaller'
      | report | flushNone | write | readFrom | flushSyn | close | writeMore | readShort
      | readFail =>
          cases hcaller'
  | readErr =>
      have hsome : s.err.or _ = none := herr'
      rw [Option.or_eq_none_iff] at hsome
      cases hsome.2
  | @sendIn _ k =>
      have hres : resumeAt k = .report n := hcaller'
      rcases k with _ | _ | _ | _ <;> cases hres
  | queue | acquire | closeSem | closeIn | wgWait | recvClosed | join | synSend | synReply
  | synReplyJoin => cases hcaller'
  | _ => exact h.ends n hcaller' hold

theorem Courses.step (h : Courses s) (hph : Phases s) (hstep : Step c s a s') : Courses s' where
  count := count_courses h hph hstep
  rd := by
    intro r hr
    obtain ⟨hscript, ⟨r', hr', heq⟩ | ⟨rest, hhead⟩⟩ := rd_from hstep hr
    · obtain ⟨r₀, rest, hhead, heq'⟩ := h.rd r' hr'
      exact ⟨r₀, rest, hscript.trans hhead, heq.trans heq'⟩
    · exact ⟨r, rest, hscript.trans hhead, rfl⟩
  ends := fun _ hcaller herr => ends_courses h hstep hcaller herr

theorem courses_newAsyncWriter (Z : Clz4) (o : OptsT) (script : List WCall) :
    Courses (newAsyncWriter Z o script) := by
  refine ⟨?_, ?_, ?_⟩
  · rintro ⟨⟩
  · rintro r ⟨⟩
  · rintro n ⟨⟩

/-! ## Where an error comes from -/

/-- The error `e` has occurred: of a write, of `CompressToBlk`, or of a source. -/
def Met (s : AsyncWriter Z) (e : Err) : Prop :=
  (∃ w ∈ s.calls, w.Raises e) ∨ (∃ x ∈ s.encodes, x.ret = .error e) ∨ e ∈ s.srcErrs

structure Origins (s : AsyncWriter Z) : Prop where
  kickErr : ∀ b e, s.loop = .kick b (.err e) → s.Met e
  kickFail : ∀ b e, s.loop = .kick b (.wrote (some e)) → s.Met e
  setErr : ∀ e k, s.loop = .setErr e k → s.Met e
  raised : ∀ e n, s.caller = .readErr e n → e ∈ s.srcErrs

theorem wrWrite_raises {plan : WrPlan} {calls calls' : List WrCall} {p : Bytes} {n : ℕ} {e : Err}
    (h : wrWrite plan calls p = (n, some e, calls')) : ∃ w ∈ calls', w.Raises e := by
  rw [(wrWrite_spec h).1]
  exact ⟨_, List.mem_concat_self, .inl rfl⟩

theorem writeHeader_raises {plan : WrPlan} {calls calls' : List WrCall} {o : OptsT} {n : ℕ} {e : Err}
    (h : writeHeader plan calls o = (n, some e, calls')) : ∃ w ∈ calls', w.Raises e := by
  unfold writeHeader at h
  rcases hwr : wrWrite plan calls (headerBytes o) with ⟨n', werr, calls''⟩
  rw [hwr, Prod.mk.injEq, Prod.mk.injEq] at h
  obtain ⟨-, herr, rfl⟩ := h
  obtain ⟨e', rfl, he⟩ := Option.map_eq_some_iff.mp herr
  rw [(wrWrite_spec hwr).1]
  exact ⟨_, List.mem_concat_self, .inr ⟨e', rfl, he.symm⟩⟩

theorem Met.step {e : Err} (h : s.Met e) (hstep : Step c s a s') : s'.Met e := by
  obtain ⟨more, es, -, hes⟩ := logs_step hstep
  refine h.imp ?_ (Or.imp ?_ (srcErrs_step hstep))
  · rintro ⟨w, hw, hraises⟩
    exact ⟨w, (calls_step hstep).subset hw, hraises⟩
  · rintro ⟨x, hx, hret⟩
    exact ⟨x, by rw [hes]; exact List.mem_append_left _ hx, hret⟩

/-- A block that came with an error. -/
theorem OutOk.met {b : OutBlk} (hb : OutOk s.blks s.encodes b) {e : Err} (he : b.err = some e) :
    s.Met e := by
  obtain ⟨x, hx, -, -, hret⟩ := hb
  rcases hr : x.ret with e' | data
  · rw [hr] at hret
    obtain rfl := Option.some.inj (he.symm.trans hret.1)
    exact .inr (.inl ⟨x, hx, hr⟩)
  · rw [hr] at hret
    rw [hret.1] at he
    cases he

/-- How the write loop comes to set an error. -/
theorem Origins.loop (h : Origins s) (hv : Values c s) (hstep : Step c s a s') :
    (∀ b e, s'.loop = .kick b (.err e) → s'.Met e)
      ∧ (∀ b e, s'.loop = .kick b (.wrote (some e)) → s'.Met e)
      ∧ ∀ e k, s'.loop = .setErr e k → s'.Met e := by
  have hif : ∀ {p : Prop} [Decidable p] {x y z : Loop}, x ≠ z → y ≠ z → (if p then x else y) ≠ z := by
    intro p _ x y z hx hy
    split_ifs
    · exact hx
    · exact hy
  cases hstep with
  -- the error of a block
  | gotErr hloop _ _ he =>
      refine ⟨fun b e hk => ?_, (by rintro b e ⟨⟩), (by rintro e k ⟨⟩)⟩
      obtain ⟨rfl, hke⟩ := Loop.kick.inj hk
      obtain rfl := Kick.err.inj hke
      exact OutOk.met (hv.outs.loop _ (by rw [hloop]; rfl)) he
  -- the error of a write
  | write hloop hblk hwr =>
      refine ⟨(by rintro b e ⟨⟩), fun b e hk => ?_, (by rintro e k ⟨⟩)⟩
      exact .inl (wrWrite_raises (hwr.trans (by rw [Kick.wrote.inj (Loop.kick.inj hk).2])))
  | headerFail hloop hwr =>
      refine ⟨(by rintro b e ⟨⟩), (by rintro b e ⟨⟩), fun e k hk => ?_⟩
      obtain ⟨rfl, -⟩ := Loop.setErr.inj hk
      exact .inl (writeHeader_raises hwr)
  | trailerFail hloop hwr =>
      refine ⟨(by rintro b e ⟨⟩), (by rintro b e ⟨⟩), fun e k hk => ?_⟩
      obtain ⟨rfl, -⟩ := Loop.setErr.inj hk
      exact .inl (wrWrite_raises hwr)
  | kickErr hloop =>
      refine ⟨(by rintro b e ⟨⟩), (by rintro b e ⟨⟩), fun e k hk => ?_⟩
      obtain ⟨rfl, -⟩ := Loop.setErr.inj hk
      exact h.kickErr _ _ hloop
  | kickFail hloop =>
      refine ⟨(by rintro b e ⟨⟩), (by rintro b e ⟨⟩), fun e k hk => ?_⟩
      obtain ⟨rfl, -⟩ := Loop.setErr.inj hk
      exact h.kickFail _ _ hloop
  | finish hloop | abort hloop | hashWait hloop =>
      refine ⟨fun b e hk => absurd hk (hif ?_ ?_), fun b e hk => absurd hk (hif ?_ ?_),
        fun e k hk => absurd hk (hif ?_ ?_)⟩ <;> rintro ⟨⟩
  | sendOut | synSend | synReply | synReplyJoin | header | headerErr | outClosed | gotDrop | gotPark
  | gotWrite | crash | kickDrop | kickNext | kickLast | setErr | reply | noReply | drained
  | hashDone | trailer | trailerErr | closeSyn =>
      exact ⟨(by rintro b e ⟨⟩), (by rintro b e ⟨⟩), (by rintro e k ⟨⟩)⟩
  -- a log grows
  | loc hl =>
      have hgrow : ∀ e, s.Met e → _ := fun e hm => hm.step (.loc hl)
      exact ⟨fun b e hk => hgrow e (h.kickErr b e hk), fun b e hk => hgrow e (h.kickFail b e hk),
        fun e k hk => hgrow e (h.setErr e k hk)⟩
  | compress hi hloc herr hret =>
      have hgrow : ∀ e, s.Met e → _ := fun e hm => hm.step (.compress hi hloc herr hret)
      exact ⟨fun b e hk => hgrow e (h.kickErr b e hk), fun b e hk => hgrow e (h.kickFail b e hk),
        fun e k hk => hgrow e (h.setErr e k hk)⟩
  | _ => exact ⟨h.kickErr, h.kickFail, h.setErr⟩

theorem Origins.step (h : Origins s) (hs : Sound c s) (hstep : Step c s a s') : Origins s' := by
  obtain ⟨hkickErr, hkickFail, hsetErr⟩ := h.loop hs.values hstep
  exact ⟨hkickErr, hkickFail, hsetErr, raised_step h.raised hstep⟩

/-- An error that is set has occurred, but for the one that `Close` sets. -/
theorem Origins.err (h : Origins s) (hs : Sound c s) (hstep : Step c s a s') {e : Err}
    (he : s'.err = some e) :
    s.err = some e ∨ s'.Met e ∨ s'.srcBlk = none ∧ s.srcBlk ≠ none := by
  by_cases hsame : s.err = some e
  · exact .inl hsame
  have hnew : ∀ {x : Option Err}, s.err.or x = some e → x = some e := by
    intro x hx
    rcases or_cases hx with hold | ⟨-, hx⟩
    · exact absurd hold hsame
    · exact hx
  have hstep' := hstep
  refine .inr ?_
  cases hstep with
  | @readErr e' n hcaller =>
      refine .inl (.inr (.inr ?_))
      rw [← Option.some.inj (hnew he)]
      exact h.raised e' n hcaller
  | headerErr hloop | setErr hloop | trailerErr hloop =>
      refine .inl (Met.step ?_ hstep')
      rw [← Option.some.inj (hnew he)]
      exact h.setErr _ _ hloop
  | join hcaller | synReplyJoin hcaller =>
      exact .inr ⟨rfl, hs.phases.srcBlk (by rw [hcaller]; rfl)⟩
  | _ => exact absurd he hsame

theorem origins_newAsyncWriter (Z : Clz4) (o : OptsT) (script : List WCall) :
    Origins (newAsyncWriter Z o script) := by
  refine ⟨?_, ?_, ?_, ?_⟩
  · rintro b e ⟨⟩
  · rintro b e ⟨⟩
  · rintro e k ⟨⟩
  · rintro e n ⟨⟩

/-! ## The protocol -/

/-- The protocol is at `q` after the calls that have returned. -/
structure Telling (c : WriterCfg) (script₀ : List WCall) (s : AsyncWriter Z) (q : Told) : Prop where
  run : Machine.run Told.next .nothing (script₀.zip s.results) = some q
  length : s.results.length ≤ script₀.length
  report : s.report = true ↔ q ≠ .nothing
  err : q ≠ .nothing → s.err = q.err
  shut : s.srcBlk = none ↔ q.shut = true
  met : q ≠ .clean → ∀ e, s.err = some e → s.Met e
  out : q = .clean → FrameOut Z c.opts s.calls s.blks.flatten

variable {q : Told}

/-- No call returns. -/
theorem Telling.same (h : Telling c script₀ s q) (hs : Sound c s) (ho : Origins s)
    (hstep : Step c s a s')
    (hresults : s'.results = s.results) (hreport : s'.report = s.report)
    (hblk : s'.srcBlk = none ↔ s.srcBlk = none) : Telling c script₀ s' q where
  run := by rw [hresults]; exact h.run
  length := by rw [hresults]; exact h.length
  report := by rw [hreport]; exact h.report
  err := by
    intro hne
    have herr := h.err hne
    rw [err_step hstep (by rw [herr]; exact Told.err_ne_none hne), herr]
  shut := hblk.trans h.shut
  met := by
    intro hq e he
    rcases ho.err hs hstep he with hold | hm | ⟨hnone, hsome⟩
    · exact (h.met hq e hold).step hstep
    · exact hm
    · exact absurd (hblk.mp hnone) hsome
  out := by
    intro hq
    obtain ⟨hblks, hcalls, -⟩ := shut_step hs.phases hstep (h.shut.mpr (by rw [hq]; rfl))
    rw [hblks, hcalls]
    exact h.out hq

/-- A call returns. -/
theorem Telling.returned (h : Telling c script₀ s q) (hl : Ledger script₀ s) {call : WCall}
    {rest : List WCall} (hscript : s.script = call :: rest) {r : CallRes} {q' : Told}
    (hnext : q.next (call, r) = some q') :
    Machine.run Told.next .nothing (script₀.zip (s.results ++ [r])) = some q'
      ∧ (s.results ++ [r]).length ≤ script₀.length := by
  have hdrop := hl.script.symm.trans hscript
  constructor
  · rw [zip_concat hdrop, Machine.run_append]
    exact ⟨q, h.run, by rw [Machine.run_cons, hnext, Option.bind_some, Machine.run_nil]⟩
  · have hlen := congrArg List.length hdrop
    rw [List.length_drop, List.length_cons] at hlen
    rw [List.length_append, List.length_singleton]
    omega

/-- A call that reports without an error has done what it was called for. -/
theorem Reports.mayBeNil {n : ℕ} (h : Reports s n) (hl : Ledger script₀ s) (hc : Courses s)
    {call : WCall} {rest : List WCall} (hscript : s.script = call :: rest) (herr : s.err = none) :
    Told.mayBeNil call n = true := by
  have hin : s.caller ≠ .idle → s.caller.In call := by
    intro hne
    obtain ⟨call', rest', hscript', hin⟩ := hl.inside hne
    obtain ⟨rfl, -⟩ := List.cons.inj (hscript.symm.trans hscript')
    exact hin
  cases h with
  | @write src n hcaller hsrc =>
      have hin := hin (by rw [hcaller]; rintro ⟨⟩)
      rw [hcaller] at hin
      cases call with
      | write src₀ =>
          obtain ⟨hdrop, hle⟩ := hin
          rw [hsrc.resolve_right (fun hne => hne herr)] at hdrop
          have hge := List.drop_eq_nil_iff.mp hdrop.symm
          exact decide_eq_true (Nat.le_antisymm hle hge)
      | readFrom | flush | close => exact hin.elim
  | readFrom _ hne | flush _ _ hne => exact absurd herr hne
  | @report n hcaller =>
      obtain ⟨r₀, rest', hscript', heof⟩ := hc.ends n hcaller herr
      obtain ⟨rfl, -⟩ := List.cons.inj (hscript.symm.trans hscript')
      simp only [Told.mayBeNil, heof, decide_true, Bool.true_or]
  | flushEnd hcaller =>
      have hin := hin (by rw [hcaller]; rintro ⟨⟩)
      rw [hcaller] at hin
      cases call with
      | flush => rfl
      | write | readFrom | close => exact hin.elim
  | close _ hclose =>
      obtain ⟨rfl, -⟩ := List.cons.inj (hscript.symm.trans hclose)
      rfl

/-- The step of a call that reports. -/
theorem Telling.next (h : Telling c script₀ s q) (hl : Ledger script₀ s)
    (hc : Courses s) {n : ℕ} (hrep : Reports s n) {call : WCall} {rest : List WCall}
    (hscript : s.script = call :: rest) :
    ∃ q', q.next (call, ⟨n, s.err⟩) = some q' ∧ q'.shut = q.shut
      ∧ ((s.report || s.err.isSome) = true ↔ q' ≠ .nothing) ∧ (q' ≠ .nothing → s.err = q'.err)
      ∧ (q' = .clean ↔ q = .clean) := by
  have hzero : q ≠ .nothing → n = 0 := by
    intro hne
    rw [← hrep.count]
    exact hc.count (h.report.mpr hne)
  have hopen : q.shut = false → Told.isClose call = false := by
    intro hshut
    by_contra hclose
    rw [Bool.not_eq_false] at hclose
    obtain rfl : call = .close := by
      cases call <;> first | rfl | cases hclose
    have hblk := hrep.shut hl hscript
    rw [h.shut.mp hblk] at hshut
    cases hshut
  have hreport : q ≠ .nothing → s.report = true := h.report.mpr
  cases q with
  | nothing =>
      have hrep' : s.report = false := by
        by_contra hne
        exact h.report.mp (Bool.not_eq_false _ ▸ hne) rfl
      have hnot : ∀ {q' : Told}, q' ≠ .clean → (q' = .clean ↔ Told.nothing = .clean) :=
        fun hne => iff_of_false hne (by rintro ⟨⟩)
      -- nothing was told: nil, or the first error
      rcases herr : s.err with _ | e
      · refine ⟨.nothing, Told.next_nil (hopen rfl) (hrep.mayBeNil hl hc hscript herr), rfl, ?_, ?_,
          Iff.rfl⟩
        · simp [hrep']
        · intro hne
          exact absurd rfl hne
      · refine ⟨.failed e, Told.next_err (hopen rfl) n e, rfl, ?_, fun _ => rfl, hnot (by rintro ⟨⟩)⟩
        simp
  -- the same error again
  | failed e =>
      obtain rfl := hzero (by rintro ⟨⟩)
      have herr : s.err = some e := h.err (by rintro ⟨⟩)
      rw [herr, hreport (by rintro ⟨⟩)]
      exact ⟨_, Told.next_failed (hopen rfl) e, rfl, by simp, fun _ => rfl, Iff.rfl⟩
  | closed e =>
      obtain rfl := hzero (by rintro ⟨⟩)
      have herr : s.err = some e := h.err (by rintro ⟨⟩)
      rw [herr, hreport (by rintro ⟨⟩)]
      exact ⟨_, Told.next_closed call e, rfl, by simp, fun _ => rfl, Iff.rfl⟩
  | clean =>
      obtain rfl := hzero (by rintro ⟨⟩)
      have herr : s.err = some (.const .errClosed) := h.err (by rintro ⟨⟩)
      rw [herr, hreport (by rintro ⟨⟩)]
      exact ⟨_, Told.next_clean call, rfl, by simp, fun _ => rfl, Iff.rfl⟩

/-- At the end of the write loop without an error the frame is out. -/
theorem Sound.frameOut (h : Sound c s) (hloop : s.loop = .done) (herr : s.err = none) :
    FrameOut Z c.opts s.calls s.blks.flatten := by
  obtain ⟨es, hw, hlen, hok⟩ := h.wrote_all hloop herr
  refine ⟨fun w hw => ⟨hok w hw, h.failing.full w hw (hok w hw)⟩, s.blks, es, rfl,
    hw.encodes h.values hlen, ?_⟩
  rw [hw.passed, List.flatten_singleton]

/-- The first `Close` returns. -/
theorem Telling.closed (h : Telling c script₀ s q) (hs : Sound c s) (hl : Ledger script₀ s)
    (hcaller : s.caller = .synJoin) (hloop : s.loop = .done) :
    ∃ q', Telling c script₀ s.closeEnd q' := by
  obtain ⟨call, rest, hscript, hin⟩ := hl.inside (by rw [hcaller]; rintro ⟨⟩)
  rw [hcaller] at hin
  obtain rfl : call = .close := by
    cases call <;> first | rfl | exact hin.elim
  have hblk : s.srcBlk ≠ none := hs.phases.srcBlk (by rw [hcaller]; rfl)
  have hret : ∀ q', q.next (.close, ⟨0, if s.report then none else s.err⟩) = some q' →
      Machine.run Told.next .nothing (script₀.zip s.closeEnd.results) = some q'
        ∧ s.closeEnd.results.length ≤ script₀.length :=
    fun q' hnext => h.returned hl hscript hnext
  have hreport : ∀ {q' : Told}, q' ≠ .nothing → (s.closeEnd.report = true ↔ q' ≠ .nothing) :=
    fun hne => ⟨fun _ => hne, fun _ => rfl⟩
  have hshut : ∀ {q' : Told}, q'.shut = true → (s.closeEnd.srcBlk = none ↔ q'.shut = true) :=
    fun hq' => ⟨fun _ => hq', fun _ => rfl⟩
  -- the error that is there stays
  have hkeep : ∀ {e}, s.err = some e → s.closeEnd.err = some e := by
    intro e he
    simp only [closeEnd, he, Option.some_or, ite_self]
  have hmet : q ≠ .clean → ∀ e, s.err = some e → s.closeEnd.Met e :=
    fun hne e he => h.met hne e he
  cases q with
  | nothing =>
      have hrep : s.report = false := by
        by_contra hne
        exact h.report.mp (Bool.not_eq_false _ ▸ hne) rfl
      simp only [hrep, Bool.false_eq_true, if_false] at hret
      rcases herr : s.err with _ | e
      · obtain ⟨hrun, hlen⟩ := hret .clean (by rw [herr]; rfl)
        refine ⟨.clean, hrun, hlen, hreport (by rintro ⟨⟩), fun _ => ?_, hshut rfl,
          fun hne => absurd rfl hne, fun _ => hs.frameOut hloop herr⟩
        simp only [closeEnd, hrep, herr]
        rfl
      · obtain ⟨hrun, hlen⟩ := hret (.closed e) (by rw [herr]; rfl)
        refine ⟨.closed e, hrun, hlen, hreport (by rintro ⟨⟩), fun _ => hkeep herr, hshut rfl,
          fun _ e' he' => ?_, by rintro ⟨⟩⟩
        rw [hkeep herr] at he'
        exact hmet (by rintro ⟨⟩) e' (herr.trans he')
  | failed e =>
      have herr : s.err = some e := h.err (by rintro ⟨⟩)
      simp only [h.report.mpr (show Told.failed e ≠ .nothing by rintro ⟨⟩), if_true] at hret
      obtain ⟨hrun, hlen⟩ := hret (.closed e) rfl
      refine ⟨.closed e, hrun, hlen, hreport (by rintro ⟨⟩), fun _ => hkeep herr, hshut rfl,
        fun _ e' he' => ?_, by rintro ⟨⟩⟩
      rw [hkeep herr] at he'
      exact hmet (by rintro ⟨⟩) e' (herr.trans he')
  | closed e | clean => exact absurd (h.shut.mpr rfl) hblk

/-- **Every step follows the protocol.** -/
theorem Telling.step (h : Telling c script₀ s q) (hs : Sound c s) (ho : Origins s)
    (hl : Ledger script₀ s) (hc : Courses s) (hstep : Step c s a s') : ∃ q', Telling c script₀ s' q' := by
  have hfill : ∀ d, s.fill d = none ↔ s.srcBlk = none := fun d => Option.map_eq_none_iff
  have hstep' := hstep
  cases hstep with
  | loc hloc =>
      cases hloc with
      -- a call returns, and the protocol takes one step
      | report hrep =>
          obtain ⟨call, rest, hscript⟩ := hrep.call hl
          obtain ⟨q', hnext, hshut, hreport, herr, hclean⟩ := h.next hl hc hrep hscript
          obtain ⟨hrun, hlen⟩ := h.returned hl hscript hnext
          refine ⟨q', hrun, hlen, hreport, herr, ?_, fun hq => h.met (fun hq' => hq (hclean.mpr hq')),
            fun hq => h.out (hclean.mp hq)⟩
          rw [hshut]
          exact h.shut
      | flushNone hcaller hscript herr =>
          obtain rfl : q = .nothing := by
            by_contra hne
            rw [h.err hne] at herr
            exact Told.err_ne_none hne herr
          obtain ⟨hrun, hlen⟩ := h.returned hl hscript
            (show Told.nothing.next (.flush, ⟨0, none⟩) = some .nothing from rfl)
          exact ⟨.nothing, hrun, hlen, h.report, h.err, h.shut, h.met, h.out⟩
      -- inside a call nothing is told
      | writeFull | writeMore | readFull | readShort | readEof | readFail =>
          exact ⟨q, h.same hs ho hstep' rfl rfl (hfill _)⟩
      | write | readFrom | flushBlk | flushSyn | closeBlk | close =>
          exact ⟨q, h.same hs ho hstep' rfl rfl Iff.rfl⟩
  | join hcaller hsyn => exact h.closed hs hl hcaller (hs.phases.syn.mp hsyn)
  | synReplyJoin hcaller hloop =>
      have hwait := hs.phases.replies hloop
      rw [hcaller] at hwait
      cases hwait
  | sendIn hcaller hblk =>
      refine ⟨q, h.same hs ho hstep' rfl rfl (iff_of_false (by rintro ⟨⟩) ?_)⟩
      rw [hblk]
      rintro ⟨⟩
  | _ => exact ⟨q, h.same hs ho hstep' rfl rfl Iff.rfl⟩

theorem telling_newAsyncWriter (Z : Clz4) (c : WriterCfg) (script : List WCall) :
    Telling c script (newAsyncWriter Z c.opts script) .nothing := by
  refine ⟨?_, Nat.zero_le _, ⟨by rintro ⟨⟩, fun hne => absurd rfl hne⟩, fun hne => absurd rfl hne,
    ⟨by rintro ⟨⟩, by rintro ⟨⟩⟩, by rintro _ e ⟨⟩, by rintro ⟨⟩⟩
  rw [show (newAsyncWriter Z c.opts script).results = [] from rfl, List.zip_nil_right]
  rfl

/-! ## Whole runs -/

/-- All that the protocol rests on. -/
structure Tells (c : WriterCfg) (script₀ : List WCall) (s : AsyncWriter Z) : Prop where
  sound : Sound c s
  ledger : Ledger script₀ s
  courses : Courses s
  origins : Origins s
  telling : ∃ q, Telling c script₀ s q

theorem telling_run {script : List WCall} (hpar : 0 < c.opts.nParallel) {as : List Act}
    (hrun : Machine.run (step c) (newAsyncWriter Z c.opts script) as = some s) :
    Tells c script s := by
  refine Machine.invariant_run (fun s a s' h hstep => ?_) ?_ hrun
  · have hst := step_spec hstep
    obtain ⟨q, hq⟩ := h.telling
    exact ⟨h.sound.step hst, h.ledger.step h.sound.phases hst, h.courses.step h.sound.phases hst,
      h.origins.step h.sound hst,
      hq.step h.sound h.origins h.ledger h.courses hst⟩
  · exact ⟨sound_newAsyncWriter Z c script hpar, ledger_newAsyncWriter Z c.opts script,
      courses_newAsyncWriter Z c.opts script,
      origins_newAsyncWriter Z c.opts script, .nothing, telling_newAsyncWriter Z c script⟩

/-- A write that failed is the first one that did. -/
theorem Failing.first (h : Failing s) {w : WrCall} (hw : w ∈ s.calls) {e : Err} (hr : w.Raises e) :
    FirstFailed s.calls e := by
  have hne : s.calls ≠ [] := List.ne_nil_of_mem hw
  have hsplit := List.dropLast_append_getLast hne
  have hlast : w = s.calls.getLast hne := by
    rw [← hsplit] at hw
    rcases List.mem_append.mp hw with hold | hnew
    · have hnone := h.last w hold
      rcases hr with hr | ⟨e', hr, -⟩
      · rw [hnone] at hr
        cases hr
      · rw [hnone] at hr
        cases hr
    · exact List.mem_singleton.mp hnew
  rw [← hsplit]
  exact .concat h.last (hlast ▸ hr)

/-- The error `e` has occurred by now: the first write that failed has it, or a block that was
compressed, or a source that was read to its error. -/
def Occurred (s : AsyncWriter Z) (e : Err) : Prop :=
  FirstFailed s.calls e ∨ (∃ x ∈ s.encodes, x.ret = .error e) ∨ e ∈ s.srcErrs

/-- **The asynchronous writer reports**, on every schedule. -/
theorem reporting (hpar : 0 < c.opts.nParallel) (script : List WCall) {as : List Act}
    (hrun : Machine.run (step c) (newAsyncWriter Z c.opts script) as = some s) :
    ∃ q, Reporting Z c.opts script s.results s.err s.calls s.Occurred q
      ∧ ∀ pre t, pre <+: as → Machine.run (step c) (newAsyncWriter Z c.opts script) pre = some t →
        ∀ e, t.err = some e → s.err = some e := by
  obtain ⟨hs, hl, hc, -, q, hq⟩ := telling_run hpar hrun
  refine ⟨q, ⟨hq.run, hq.err, fun r hr e he => ?_, fun hclean e he => ?_, fun hclean => ?_⟩, ?_⟩
  · obtain ⟨hne, herr⟩ := Told.only_zip hq.run hq.length hr he
    exact (hq.err hne).trans herr
  · rcases hq.met hclean e he with ⟨w, hw, hr⟩ | hm
    · exact .inl (hs.failing.first hw hr)
    · exact .inr hm
  · have hblk := hq.shut.mpr (by rw [hclean]; rfl)
    have hcontent := hl.content
    rw [part_of_count (hc.count (hq.report.mpr (by rw [hclean]; rintro ⟨⟩))), List.append_nil, cur,
      hblk] at hcontent
    rw [← hcontent, show ((none : Option Blk).map Blk.data).getD [] = [] from rfl, List.append_nil]
    exact hq.out hclean
  · rintro pre t ⟨rest, rfl⟩ ht e he
    obtain ⟨t', ht', hrest⟩ := Machine.run_append.mp hrun
    obtain rfl := Option.some.inj (ht.symm.trans ht')
    exact Machine.invariant_run (I := fun u => u.err = some e)
      (fun u a u' hu hstep => (err_step (step_spec hstep) (by rw [hu]; rintro ⟨⟩)).trans hu) he hrest

end AsyncWriter

/-- **How Writers report errors.** Every call follows the protocol; the error told is the first
one that was recorded, and it has occurred, with the synchronous writer as the first of all;
and a `Close` that returns nil with no error before means that the frame is out. -/
theorem error_reporting (Z : Clz4) (o : OptsT) :
    (usesSyncWriter o = true → ∀ (buf : PoolBlk o.bsz) (wr : WrPlan) (cs : List WCall),
      let rs := ((newSyncWriter Z o buf).runCalls wr cs).1
      let w := ((newSyncWriter Z o buf).runCalls wr cs).2
      ∃ q, Reporting Z o cs rs w.state w.calls (FirstOccurred w.calls w.srcErrs) q
        ∧ (q = .nothing → w.state = none ∧ (∀ c ∈ w.calls, c.err = none) ∧ w.srcErrs = [])
        ∧ ∀ pre, pre <+: cs → ∀ e, ((newSyncWriter Z o buf).runCalls wr pre).2.state = some e →
          w.state = some e)
    ∧ (0 < o.nParallel → ∀ (wr : WrPlan) (script : List WCall) (as : List AsyncWriter.Act)
        (s : AsyncWriter Z),
      Machine.run (AsyncWriter.step ⟨o, wr⟩) (newAsyncWriter Z o script) as = some s →
      ∃ q, Reporting Z o script s.results s.err s.calls s.Occurred q
        ∧ ∀ pre t, pre <+: as →
          Machine.run (AsyncWriter.step ⟨o, wr⟩) (newAsyncWriter Z o script) pre = some t →
          ∀ e, t.err = some e → s.err = some e) := by
  constructor
  · intro hsync buf wr cs
    have hindep : o.blockLinked = false := by
      rw [usesSyncWriter, Bool.and_eq_true, Bool.not_eq_true'] at hsync
      exact hsync.2
    exact SyncWriter.reporting hindep buf wr cs
  · intro hpar wr script as s hrun
    exact AsyncWriter.reporting (c := ⟨o, wr⟩) hpar script hrun

/-- The header fails, and only then the caller closes. -/
def failedClose : List AsyncWriter.Act :=
  [.loop, .loop, .caller, .caller, .caller, .task 0, .caller, .loop, .loop, .loop, .loop, .hasher,
    .loop, .loop, .caller]

/-- A flush that fails and the `Close` after it; and a header that fails in the write loop. -/
theorem error_reporting_flush :
    ∃ (buf : PoolBlk OptsT.sync64KB.bsz) (rs : List CallRes) (w : SyncWriter litEngine)
      (q q' : Told),
      (newSyncWriter litEngine .sync64KB buf).runCalls failSecond [.write [7], .flush, .close]
        = (rs, w)
        ∧ Reporting litEngine .sync64KB [.write [7], .flush, .close] rs w.state w.calls
          (FirstOccurred w.calls w.srcErrs) q
        ∧ ∃ s : AsyncWriter litEngine,
          Machine.run (AsyncWriter.step ⟨.default, fun _ => some (3, .other 0)⟩)
              (newAsyncWriter litEngine .default [.close]) failedClose = some s
            ∧ s.results = [⟨0, some (.join (.const .errHeaderWrite) (.other 0))⟩]
            ∧ Reporting litEngine .default [.close] s.results s.err s.calls s.Occurred q' := by
  have buf : PoolBlk OptsT.sync64KB.bsz := ⟨_, List.length_replicate (a := (0 : UInt8))⟩
  obtain ⟨q, hq, -⟩ := (error_reporting litEngine .sync64KB).1 rfl buf failSecond
    [.write [7], .flush, .close]
  have hrun : (Machine.run (AsyncWriter.step ⟨.default, fun _ => some (3, .other 0)⟩)
      (newAsyncWriter litEngine .default [.close]) failedClose).map AsyncWriter.results
      = some [⟨0, some (.join (.const .errHeaderWrite) (.other 0))⟩] := by decide +kernel
  obtain ⟨s, hs, hresults⟩ := Option.map_eq_some_iff.mp hrun
  obtain ⟨q', hq', -⟩ := (error_reporting litEngine .default).2 (by decide)
    (fun _ => some (3, .other 0)) [.close] failedClose s hs
  exact ⟨buf, _, _, q, q', rfl, hq, s, hs, hresults, hq'⟩

/-- Blocks of 64 KiB and one task, without the content checksum. -/
def OptsT.oneTask : OptsT :=
  { OptsT.sync64KB with nParallel := 1, contentChecksum := false }

open AsyncWriter in
theorem run_secondFailed (Z : Clz4) {p d : Bytes} (hp : p.length = OptsT.oneTask.bsz)
    {cmp : Compressor Z}
    (hok : compressToBlk p (OptsT.oneTask.newCompressorFactory Z).newCompressor
      OptsT.oneTask.bsz false none = (.ok d, cmp)) :
    ∃ s, Machine.run (step ⟨.oneTask, failSecond⟩)
        (newAsyncWriter Z .oneTask [.write p, .readFrom ⟨[], [], false, .other 1⟩])
        [.loop, .caller, .caller, .caller, .sendIn 0, .task 0, .task 0, .sendOut 0, .loop, .loop,
          .caller, .caller] = some s
      ∧ (s.err = none ∧ (∃ w ∈ s.calls, w.err = some (.other 0))
        ∧ s.caller = .readFrom ⟨[], [], false, .other 1⟩ 0
        ∧ ∃ t, Machine.run (step ⟨.oneTask, failSecond⟩) s [.caller, .caller, .caller] = some t
          ∧ t.results = [⟨0 + OptsT.oneTask.bsz, none⟩, ⟨0, some (.other 1)⟩]) := by
  refine Machine.exists_run_append (show Machine.run (step ⟨.oneTask, failSecond⟩) _
    [.loop, .caller] = some _ from rfl) ?_
  refine Machine.exists_run_append (run_hand (p := p) (q := []) (n := 0) ?_ rfl rfl rfl hp
    (show 0 < OptsT.oneTask.calcPending by decide) rfl rfl rfl) ?_
  · rw [List.append_nil]
    rfl
  refine Machine.exists_run_append (run_make (c := ⟨.oneTask, failSecond⟩) (i := 0) hok rfl rfl rfl
    rfl rfl) ?_
  exact ⟨_, rfl, rfl, ⟨_, List.mem_concat_self, rfl⟩, rfl, _, rfl, rfl⟩

open AsyncWriter in
/-- The write of a block fails; before the write loop sets the error, `ReadFrom` meets a source
that fails, and sets its error. -/
theorem error_reporting_first :
    ∃ s t : AsyncWriter litEngine,
      (∃ as, Machine.run (step ⟨.oneTask, failSecond⟩) (newAsyncWriter litEngine .oneTask
          [.write (List.replicate OptsT.oneTask.bsz 0), .readFrom ⟨[], [], false, .other 1⟩]) as
        = some s)
        ∧ s.err = none ∧ (∃ w ∈ s.calls, w.err = some (.other 0))
        ∧ s.caller = .readFrom ⟨[], [], false, .other 1⟩ 0
        ∧ Machine.run (step ⟨.oneTask, failSecond⟩) s [.caller, .caller, .caller] = some t
        ∧ t.results.getLast? = some ⟨0, some (.other 1)⟩ := by
  have hok := compressToBlk_isOk (o := .oneTask) (CompressorFactory.Reach.new (f :=
    OptsT.oneTask.newCompressorFactory litEngine)) (.inl rfl) (List.replicate OptsT.oneTask.bsz 0) none
  rcases hret : compressToBlk (List.replicate OptsT.oneTask.bsz 0)
    (OptsT.oneTask.newCompressorFactory litEngine).newCompressor OptsT.oneTask.bsz false none
    with ⟨ret, cmp⟩
  rw [show OptsT.oneTask.blockChecksum = false from rfl, hret] at hok
  cases ret with
  | error e => cases hok
  | ok d =>
      obtain ⟨s, hs, herr, hcall, hcaller, t, ht, hres⟩ :=
        run_secondFailed litEngine List.length_replicate hret
      exact ⟨s, t, ⟨_, hs⟩, herr, hcall, hcaller, ht, by rw [hres]; rfl⟩

end Plz4
