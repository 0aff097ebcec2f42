/-
Every run of the asynchronous writer ends.

`fuel` sums what each thread can still do: the calls and bytes the caller has left, the
way of each block through the tasks and the write loop, the messages for the hasher. A
step lowers it, as long as no reader repeats `io.ErrUnexpectedEOF` (the loop of
`ReadFrom` does not end on that one).
-/
import Plz4.AsyncWriterPhases

set_option autoImplicit false

namespace Plz4

/-! ## Fuel -/

/-- The steps of the caller after `_flushBlk`. -/
def Then.fuel : Then → ℕ
  | .write src _ => 18 * src.length + 1
  | .readFrom r _ => 18 * r.data.length + 3
  | .flush => 5
  | .close => 4

/-- The steps of a call from its entry, and what it sets the other threads to do. -/
def WCall.fuel : WCall → ℕ
  | .write src => 18 * src.length + 2
  | .readFrom r => 18 * r.data.length + 4
  | .flush => 23
  | .close => 22

/-- What the caller has left, with the calls of `script`. -/
def Caller.fuel (script : List WCall) : Caller → ℕ
  | .idle => (script.map WCall.fuel).sum
  | .write src _ => (script.tail.map WCall.fuel).sum + (18 * src.length + 1)
  | .readFrom r _ => (script.tail.map WCall.fuel).sum + (18 * r.data.length + 3)
  | .readErr _ _ => (script.tail.map WCall.fuel).sum + 2
  | .report _ => (script.tail.map WCall.fuel).sum + 1
  | .queue k => (script.tail.map WCall.fuel).sum + k.fuel + 17
  | .acquire k => (script.tail.map WCall.fuel).sum + k.fuel + 14
  | .sendIn k => (script.tail.map WCall.fuel).sum + k.fuel + 13
  | .synSend => (script.tail.map WCall.fuel).sum + 5
  | .synWait => (script.tail.map WCall.fuel).sum + 2
  | .flushEnd => (script.tail.map WCall.fuel).sum + 1
  | .closeSem => (script.tail.map WCall.fuel).sum + 4
  | .closeIn => (script.tail.map WCall.fuel).sum + 3
  | .wgWait => (script.tail.map WCall.fuel).sum + 2
  | .synJoin => (script.tail.map WCall.fuel).sum + 1

/-- The way of a block from a task to the write loop, and the task's last step. -/
def TaskAt.fuel : TaskAt → ℕ
  | .recv => 1
  | .check _ => 12
  | .free _ _ => 11
  | .freeSend _ _ => 10
  | .release _ => 2
  | .send _ => 8
  | .done => 0

def Task.fuel {Z : Clz4} (t : Task Z) : ℕ := t.loc.fuel

def Loop.fuel : Loop → ℕ
  | .header => 10
  | .setErr _ .select => 9
  | .select => 8
  | .got _ => 14
  | .write _ => 13
  | .kick _ _ => 12
  | .setErr _ .reply => 11
  | .reply => 10
  | .synSend => 9
  | .drain => 7
  | .finish => 6
  | .hashDone _ => 5
  | .hashWait _ => 4
  | .trailer _ => 3
  | .setErr _ .closeSyn => 2
  | .closeSyn => 1
  | .done | .crashed _ => 0

def Ref.fuel : Ref → ℕ
  | .queue _ => 2
  | .free _ => 1

def HasherIdx.fuel (h : HasherIdx) : ℕ :=
  (h.q.map Ref.fuel).sum + (if h.busy then 1 else 0) + if h.exited then 0 else 1

/-- The caller has a block that is not yet handed over. -/
def Caller.flushing : Caller → Bool
  | .queue _ | .acquire _ | .sendIn _ => true
  | _ => false

/-- The reader the caller is at. -/
def Caller.rd : Caller → Option Rd
  | .readFrom r _ | .queue (.readFrom r _) | .acquire (.readFrom r _) | .sendIn (.readFrom r _) =>
      some r
  | _ => none

namespace AsyncWriter

variable {Z : Clz4} {c : WriterCfg} {s s' : AsyncWriter Z} {a : Act}

/-- What all threads have left. -/
def fuel (s : AsyncWriter Z) : ℕ :=
  s.caller.fuel s.script + (s.tasks.map Task.fuel).sum + s.loop.fuel + 2 * s.pending.length
    + s.hasher.elim 0 HasherIdx.fuel

/-! ## The buffer and the readers -/

/-- The block buffer is full only while its block is handed over. -/
structure Room (c : WriterCfg) (s : AsyncWriter Z) : Prop where
  lt : s.caller.flushing = false → s.cur.length < c.opts.bsz
  le : s.cur.length ≤ c.opts.bsz

/-- The errors of the readers of the calls still to make, of the one the caller is at, and of
those that have failed. -/
structure Sources (P : Err → Prop) (s : AsyncWriter Z) : Prop where
  script : ∀ r, WCall.readFrom r ∈ s.script → P r.err
  caller : ∀ r, s.caller.rd = some r → P r.err
  failed : ∀ e ∈ s.srcErrs, P e ∧ e ≠ .eof ∧ e ≠ .unexpectedEOF

/-- No reader repeats `io.ErrUnexpectedEOF`. -/
abbrev Ends (s : AsyncWriter Z) : Prop := Sources (fun e => e ≠ .unexpectedEOF) s

theorem cur_fill (hblk : s.srcBlk ≠ none) (d : Bytes) :
    ((s.fill d).map Blk.data).getD [] = s.cur ++ d := by
  obtain ⟨b, hb⟩ := Option.ne_none_iff_exists'.mp hblk
  unfold fill cur
  rw [hb]
  rfl

theorem length_fill_le (s : AsyncWriter Z) (d : Bytes) :
    ((s.fill d).map Blk.data).getD [] = s.cur ++ d ∨ ((s.fill d).map Blk.data).getD [] = s.cur := by
  by_cases hblk : s.srcBlk = none
  · right
    unfold fill cur
    rw [hblk]
    rfl
  · exact .inl (cur_fill hblk d)

theorem flushing_resumeAt (k : Then) : (resumeAt k).flushing = false := by
  rcases k with _ | _ | _ | _ <;> rfl

theorem flushing_flushAt (s : AsyncWriter Z) (k : Then) : (s.flushAt k).flushing = true := by
  unfold flushAt
  split_ifs <;> rfl

theorem Caller.flushing_of_starts {x : Caller} (h : x.starts = true) : x.flushing = false := by
  cases x <;> first | rfl | cases h

/-- What the block buffer holds after a step of the caller alone. -/
theorem Local.room {x : Caller} {script : List WCall} {b : Option Blk} {rep : Bool}
    {rs : List CallRes} {es : List Err} (h : Local c s x script b rep rs es) (hr : Room c s) :
    (x.flushing = false → ((b.map Blk.data).getD []).length < c.opts.bsz)
      ∧ ((b.map Blk.data).getD []).length ≤ c.opts.bsz := by
  have hlt := hr.lt (Caller.flushing_of_starts h.starts)
  have hfill : ∀ d : Bytes, s.cur.length + d.length ≤ c.opts.bsz →
      (((s.fill d).map Blk.data).getD []).length ≤ c.opts.bsz := by
    intro d hd
    rcases length_fill_le s d with heq | heq
    · rw [heq, List.length_append]
      exact hd
    · rw [heq]
      exact hr.le
  have hfill' : ∀ d : Bytes, s.cur.length + d.length < c.opts.bsz →
      (((s.fill d).map Blk.data).getD []).length < c.opts.bsz := by
    intro d hd
    rcases length_fill_le s d with heq | heq
    · rw [heq, List.length_append]
      exact hd
    · rw [heq]
      exact hlt
  cases h with
  | @writeFull src n k hcaller hsrc herr hk hfull =>
      -- full: the caller goes to hand it over
      refine ⟨fun hf => ?_, hfill _ ?_⟩
      · rw [flushing_flushAt] at hf
        cases hf
      · rw [List.length_take]
        omega
  | @writeMore src n k hcaller hsrc herr hk hfull =>
      have hlen : s.cur.length + (src.take k).length < c.opts.bsz := by
        rw [List.length_take]
        omega
      exact ⟨fun _ => hfill' _ hlen, (hfill' _ hlen).le⟩
  | @readFull r r' n d hcaller herr hread =>
      obtain ⟨hd, -, -, -⟩ := Rd.readFull_none hread
      refine ⟨fun hf => ?_, hfill _ ?_⟩
      · rw [flushing_flushAt] at hf
        cases hf
      · rw [hd, List.length_take]
        omega
  | readShort hcaller herr hread | readEof hcaller herr hread | readFail hcaller herr he hread =>
      obtain ⟨rfl, hshort, -⟩ := Rd.readFull_some hread
      have hlen := hfill' _ (Nat.add_lt_of_lt_sub' hshort)
      exact ⟨fun _ => hlen, hlen.le⟩
  | _ => exact ⟨fun _ => hlt, hr.le⟩

theorem Room.step (h : Room c s) (hstep : Step c s a s') : Room c s' := by
  have hzero : ([] : Bytes).length < c.opts.bsz := c.opts.bsz_pos
  cases hstep with
  | loc hl =>
      obtain ⟨hlt, hle⟩ := hl.room h
      exact ⟨hlt, hle⟩
  | queue hcaller | acquire hcaller =>
      exact ⟨(by rintro ⟨⟩), h.le⟩
  | sendIn | join | synReplyJoin => exact ⟨fun _ => hzero, hzero.le⟩
  | readErr hcaller | closeSem hcaller | closeIn hcaller | wgWait hcaller | recvClosed hcaller
  | synSend hcaller | synReply hcaller =>
      exact ⟨fun _ => h.lt (by rw [hcaller]; rfl), h.le⟩
  | _ => exact ⟨h.lt, h.le⟩

theorem room_newAsyncWriter (Z : Clz4) (c : WriterCfg) (script : List WCall) :
    Room c (newAsyncWriter Z c.opts script) :=
  ⟨fun _ => c.opts.bsz_pos, Nat.zero_le _⟩

theorem room_run {script : List WCall} {as : List Act}
    (hrun : Machine.run (step c) (newAsyncWriter Z c.opts script) as = some s) : Room c s :=
  Machine.invariant_run (fun _ _ _ h hstep => h.step (step_spec hstep))
    (room_newAsyncWriter Z c script) hrun

theorem rd_flushAt (s : AsyncWriter Z) (k : Then) : (s.flushAt k).rd = (Caller.queue k).rd := by
  unfold flushAt
  split_ifs
  · rfl
  · rcases k with _ | _ | _ | _ <;> rfl

theorem Local.sources {P : Err → Prop} {x : Caller} {script : List WCall} {b : Option Blk} {rep : Bool}
    {rs : List CallRes} {es : List Err} (h : Local c s x script b rep rs es) (he : Sources P s) :
    (∀ r, WCall.readFrom r ∈ script → P r.err) ∧ (∀ r, x.rd = some r → P r.err)
      ∧ ∀ e ∈ es, P e ∧ e ≠ .eof ∧ e ≠ .unexpectedEOF := by
  have htail : ∀ r, WCall.readFrom r ∈ s.script.tail → P r.err :=
    fun r hr => he.script r (List.mem_of_mem_tail hr)
  cases h with
  | report | flushNone => exact ⟨htail, (by rintro _ ⟨⟩), he.failed⟩
  | readFrom hcaller hscript =>
      refine ⟨he.script, fun r hr => ?_, he.failed⟩
      obtain rfl := Option.some.inj hr
      exact he.script _ (by rw [hscript]; exact List.mem_cons_self)
  | readFull hcaller herr hread =>
      refine ⟨he.script, fun r hr => ?_, he.failed⟩
      rw [rd_flushAt] at hr
      obtain rfl := Option.some.inj hr
      rw [(Rd.readFull_none hread).2.2.2]
      exact he.caller _ (by rw [hcaller]; rfl)
  | readShort hcaller herr hread =>
      refine ⟨he.script, fun r hr => ?_, he.failed⟩
      obtain rfl := Option.some.inj hr
      rw [(Rd.readFull_some hread).2.2.2.1]
      exact he.caller _ (by rw [hcaller]; rfl)
  | flushBlk | closeBlk | writeFull =>
      refine ⟨he.script, fun r hr => ?_, he.failed⟩
      rw [rd_flushAt] at hr
      cases hr
  | readFail hcaller herr hne hread =>
      -- the source has given its error
      refine ⟨he.script, (by rintro r ⟨⟩), fun e hmem => ?_⟩
      rcases List.mem_append.mp hmem with hold | hnew
      · exact he.failed e hold
      · rw [List.mem_singleton.mp hnew]
        rcases (Rd.readFull_some hread).2.2.2.2 with ⟨-, -, heq⟩ | ⟨-, heq⟩
        · exact absurd heq hne.1
        · exact ⟨heq ▸ he.caller _ (by rw [hcaller]; rfl), hne.2, hne.1⟩
  | write | flushSyn | close | writeMore | readEof =>
      exact ⟨he.script, (by rintro r ⟨⟩), he.failed⟩

theorem Sources.step {P : Err → Prop} (h : Sources P s) (hstep : Step c s a s') : Sources P s' := by
  have htail : ∀ r, WCall.readFrom r ∈ s.script.tail → P r.err :=
    fun r hr => h.script r (List.mem_of_mem_tail hr)
  cases hstep with
  | loc hl => exact ⟨(hl.sources h).1, (hl.sources h).2.1, (hl.sources h).2.2⟩
  | @queue k _ _ hcaller | @acquire k hcaller =>
      refine ⟨h.script, fun r hr => h.caller r ?_, h.failed⟩
      rw [hcaller]
      rcases k with _ | _ | _ | _ <;> exact hr
  | @sendIn _ k _ _ hcaller =>
      refine ⟨h.script, fun r hr => h.caller r ?_, h.failed⟩
      rw [hcaller]
      rcases k with _ | _ | _ | _
      · cases hr
      · exact hr
      · cases hr
      · cases hr
  | join | synReplyJoin => exact ⟨htail, (by rintro r ⟨⟩), h.failed⟩
  | readErr | closeSem | closeIn | wgWait | recvClosed | synSend | synReply =>
      exact ⟨h.script, (by rintro r ⟨⟩), h.failed⟩
  | _ => exact ⟨h.script, h.caller, h.failed⟩

theorem sources_newAsyncWriter {P : Err → Prop} (Z : Clz4) (o : OptsT) {script : List WCall}
    (h : ∀ r, WCall.readFrom r ∈ script → P r.err) : Sources P (newAsyncWriter Z o script) :=
  ⟨h, (by rintro r ⟨⟩), (by rintro e ⟨⟩)⟩

/-- The caller stays with its reader until the call returns. -/
theorem rd_step (hstep : Step c s a s') {r : Rd} (h : s.caller.rd = some r) :
    s'.caller.rd = none ∨ ∃ r', s'.caller.rd = some r' ∧ r'.err = r.err := by
  cases hstep with
  | loc hl =>
      cases hl with
      | write hcaller | readFrom hcaller | flushBlk hcaller | flushSyn hcaller | closeBlk hcaller
      | close hcaller =>
          rw [hcaller] at h
          cases h
      | @readFull r₀ r' n d hcaller herr hread =>
          rw [hcaller] at h
          obtain rfl := Option.some.inj h
          exact .inr ⟨r', rd_flushAt s _, (Rd.readFull_none hread).2.2.2⟩
      | @readShort r₀ r' n d hcaller herr hread =>
          rw [hcaller] at h
          obtain rfl := Option.some.inj h
          exact .inr ⟨r', rfl, (Rd.readFull_some hread).2.2.2.1⟩
      | writeFull => exact .inl (rd_flushAt s _)
      | report | flushNone | writeMore | readEof | readFail => exact .inl rfl
  | @queue k _ _ hcaller | @acquire k hcaller =>
      refine .inr ⟨r, ?_, rfl⟩
      rw [hcaller] at h
      rcases k with _ | _ | _ | _ <;> exact h
  | @sendIn _ k _ _ hcaller =>
      rw [hcaller] at h
      rcases k with _ | ⟨r', n⟩ | _ | _
      · cases h
      · exact .inr ⟨r, h, rfl⟩
      · cases h
      · cases h
  | readErr | closeSem | closeIn | wgWait | recvClosed | join | synSend | synReply | synReplyJoin =>
      exact .inl rfl
  | _ => exact .inr ⟨r, h, rfl⟩

/-! ## Every step lowers the fuel -/

theorem fuel_flushAt_le (s : AsyncWriter Z) (script : List WCall) (k : Then) :
    (s.flushAt k).fuel script ≤ (script.tail.map WCall.fuel).sum + k.fuel + 17 := by
  unfold flushAt
  split_ifs
  · exact Nat.le_refl _
  · exact Nat.add_le_add_left (by omega) _

theorem fuel_resumeAt (script : List WCall) (k : Then) :
    (resumeAt k).fuel script = (script.tail.map WCall.fuel).sum + k.fuel := by
  rcases k with _ | _ | _ | _ <;> rfl

theorem fuel_afterFree_le (b : InBlkW) (out : Option OutBlk) : (afterFree b out).fuel ≤ 8 := by
  rcases out with _ | out
  · exact (by omega : 2 ≤ 8)
  · exact Nat.le_refl 8

theorem fuel_spawned_le (o : OptsT) (s : AsyncWriter Z) :
    ((s.spawned o).map Task.fuel).sum ≤ 1 := by
  unfold spawned
  split_ifs
  · exact Nat.le_refl 1
  · exact Nat.zero_le 1

/-- A caller at a `reportError` has at least one step left. -/
theorem Reports.fuel_lt {n : ℕ} (h : Reports s n) :
    (s.script.tail.map WCall.fuel).sum < s.caller.fuel s.script := by
  cases h with
  | write hcaller | readFrom hcaller | report hcaller | flushEnd hcaller =>
      rw [hcaller]
      exact Nat.lt_add_of_pos_right (Nat.succ_pos _)
  | flush hcaller hscript | close hcaller hscript =>
      rw [hcaller, hscript]
      exact Nat.lt_add_of_pos_left (Nat.succ_pos _)

theorem Local.fuel_lt {x : Caller} {script : List WCall} {b : Option Blk} {rep : Bool}
    {rs : List CallRes} {es : List Err} (h : Local c s x script b rep rs es) (hr : Room c s)
    (he : ∀ r, s.caller.rd = some r → r.err ≠ .unexpectedEOF) :
    x.fuel script < s.caller.fuel s.script := by
  have hroom := hr.lt (Caller.flushing_of_starts h.starts)
  have hflush := fuel_flushAt_le s s.script
  cases h with
  | report h => exact h.fuel_lt
  | write hcaller hscript | readFrom hcaller hscript | flushNone hcaller hscript
  | flushSyn hcaller hscript | close hcaller hscript =>
      rw [hcaller, hscript]
      simp only [Caller.fuel, WCall.fuel, List.map_cons, List.sum_cons, List.tail_cons]
      omega
  -- a block to hand over is paid for by the call that is taken from the script
  | flushBlk hcaller hscript =>
      have := hflush .flush
      rw [hcaller]
      rw [hscript] at this ⊢
      simp only [Caller.fuel, WCall.fuel, Then.fuel, List.map_cons, List.sum_cons,
        List.tail_cons] at this ⊢
      omega
  | closeBlk hcaller hscript =>
      have := hflush .close
      rw [hcaller]
      rw [hscript] at this ⊢
      simp only [Caller.fuel, WCall.fuel, Then.fuel, List.map_cons, List.sum_cons,
        List.tail_cons] at this ⊢
      omega
  -- each pass takes bytes from the source
  | @writeFull src n k hcaller hsrc herr hk hfull =>
      have hpos := List.length_pos_iff.mpr hsrc
      have := hflush (.write (src.drop k) (n + k))
      rw [hcaller]
      simp only [Caller.fuel, Then.fuel, List.length_drop] at this ⊢
      omega
  | @writeMore src n k hcaller hsrc herr hk hfull =>
      have hpos := List.length_pos_iff.mpr hsrc
      rw [hcaller]
      simp only [Caller.fuel, List.length_drop]
      omega
  | @readFull r r' n d hcaller herr hread =>
      obtain ⟨-, hle, hdata, -⟩ := Rd.readFull_none hread
      have := hflush (.readFrom r' (n + d.length))
      rw [hcaller]
      simp only [Caller.fuel, Then.fuel, hdata, List.length_drop] at this ⊢
      omega
  | @readShort r r' n d hcaller herr hread =>
      obtain ⟨-, -, hdata, -, hcase⟩ := Rd.readFull_some hread
      rw [hcaller]
      rcases hcase with ⟨hne, -, -⟩ | ⟨-, heq⟩
      · have hpos := List.length_pos_iff.mpr hne
        simp only [Caller.fuel, hdata, List.length_nil]
        omega
      · -- an empty read that is not the end of the source would be tried again
        exact absurd heq.symm (he r (by rw [hcaller]; rfl))
  | readEof hcaller herr hread =>
      rw [hcaller]
      simp only [Caller.fuel]
      omega
  | readFail hcaller herr hne hread =>
      rw [hcaller]
      simp only [Caller.fuel]
      omega

/-- A task moves. -/
theorem sum_fuel {i : ℕ} {t : Task Z} (hi : s.tasks[i]? = some t) (t' : Task Z) :
    ((s.tasks.set i t').map Task.fuel).sum + t.loc.fuel
      = (s.tasks.map Task.fuel).sum + t'.loc.fuel :=
  Pool.sum_set Task.fuel hi t'

/-- Only the reader the caller is at matters. -/
theorem fuel_step (hr : Room c s) (he : ∀ r, s.caller.rd = some r → r.err ≠ .unexpectedEOF)
    (hstep : Step c s a s') : s'.fuel < s.fuel := by
  cases hstep with
  -- the caller
  | loc hl =>
      have hlt := hl.fuel_lt hr he
      unfold fuel
      simp only
      omega
  | readErr hcaller =>
      unfold fuel
      simp only [hcaller, Caller.fuel]
      omega
  | @queue k b h hcaller hblk hh hlen hcl =>
      unfold fuel
      simp only [hcaller, hh, Caller.fuel, Option.elim, HasherIdx.fuel, List.map_append,
        List.sum_append, List.map_singleton, List.sum_singleton, Ref.fuel]
      omega
  | acquire hcaller =>
      unfold fuel
      simp only [hcaller, Caller.fuel]
      omega
  | closeSem hcaller | closeIn hcaller | wgWait hcaller | recvClosed hcaller =>
      unfold fuel
      simp only [hcaller, Caller.fuel]
      omega
  | join hcaller =>
      unfold fuel
      simp only [hcaller, closeEnd, ret, Caller.fuel]
      omega
  | @sendIn i k b t hcaller hblk hi hloc hcl =>
      have hsum := sum_fuel hi { t with loc := .check ⟨s.srcIdx, b, if c.opts.blockLinked then s.dict else none⟩ }
      have hspawn := fuel_spawned_le c.opts s
      have hresume := fuel_resumeAt s.script k
      rw [hloc] at hsum
      unfold fuel
      simp only [sendInStep, hresume, List.map_append, List.sum_append]
      rw [hcaller]
      simp only [Caller.fuel, TaskAt.fuel] at hsum ⊢
      omega
  -- the tasks
  | @exit i t hi hloc hcl =>
      have hsum := sum_fuel hi { t with loc := .done }
      rw [hloc] at hsum
      unfold fuel
      simp only [TaskAt.fuel] at hsum ⊢
      omega
  | @skip i t b hi hloc herr =>
      have hsum := sum_fuel hi { t with loc := .free b none }
      rw [hloc] at hsum
      unfold fuel
      simp only [TaskAt.fuel] at hsum ⊢
      omega
  | @compress i t b ret cmp hi hloc herr hret =>
      have hsum := sum_fuel hi ⟨.free b (some (outOf b s.borrowed ret)), cmp⟩
      rw [hloc] at hsum
      unfold fuel
      simp only [TaskAt.fuel] at hsum ⊢
      omega
  | @freeAsk i t b out h hi hloc hh hnext =>
      have hsum := sum_fuel hi { t with loc := .freeSend b out }
      rw [hloc] at hsum
      unfold fuel
      simp only [TaskAt.fuel] at hsum ⊢
      omega
  | @freeNow i t b out hi hloc hnext =>
      have hsum := sum_fuel hi { t with loc := afterFree b out }
      have hle := fuel_afterFree_le b out
      rw [hloc] at hsum
      unfold fuel
      simp only [TaskAt.fuel.eq_3] at hsum ⊢
      omega
  | @freeSend i t b out h hi hloc hh hlen hcl =>
      have hsum := sum_fuel hi { t with loc := afterFree b out }
      have hle := fuel_afterFree_le b out
      rw [hloc] at hsum
      unfold fuel
      simp only [TaskAt.fuel.eq_4, hh, Option.elim, HasherIdx.fuel, List.map_append, List.sum_append,
        List.map_singleton, List.sum_singleton, Ref.fuel] at hsum ⊢
      omega
  | @release i idx t hi hloc hsem =>
      have hsum := sum_fuel hi { t with loc := .recv }
      rw [hloc] at hsum
      unfold fuel
      simp only [TaskAt.fuel] at hsum ⊢
      omega
  -- the hasher
  | hashBump hh hbusy =>
      unfold fuel
      simp only [hh, Option.elim, HasherIdx.fuel, hbusy, if_true, Bool.false_eq_true, if_false]
      omega
  | hashQueue hh hbusy hq =>
      unfold fuel
      simp only [hh, Option.elim, HasherIdx.fuel, hbusy, hq, if_true, Bool.false_eq_true, if_false,
        List.map_cons, List.sum_cons, Ref.fuel]
      omega
  | hashFree hh hbusy hq =>
      unfold fuel
      simp only [hh, Option.elim, HasherIdx.fuel, hq, List.map_cons, List.sum_cons, Ref.fuel]
      omega
  | hashExit hh hbusy hq hcl hex =>
      unfold fuel
      simp only [hh, Option.elim, HasherIdx.fuel, hex, if_true, Bool.false_eq_true, if_false]
      omega
  -- the write loop, with another thread
  | @sendOut i t b hi hloc hloop hcl =>
      have hsum := sum_fuel hi { t with loc := .recv }
      rw [hloc] at hsum
      unfold fuel
      simp only [hloop, TaskAt.fuel, Loop.fuel] at hsum ⊢
      omega
  | synSend hcaller hloop hcl | synReply hcaller hloop hcl =>
      unfold fuel
      simp only [hcaller, hloop, Caller.fuel, Loop.fuel]
      omega
  | synReplyJoin hcaller hloop hcl =>
      unfold fuel
      simp only [hcaller, hloop, closeEnd, ret, Caller.fuel, Loop.fuel]
      omega
  -- the write loop
  | gotPark hloop =>
      unfold fuel
      simp only [hloop, Loop.fuel, List.length_append, List.length_singleton]
      omega
  | kickNext hloop hsem hmem hidx hfind =>
      have hlen := List.length_eraseP_of_mem hmem (p := fun b => b.idx = s.nextIdx + 1) (by simpa using hidx)
      have hpos := List.length_pos_of_mem hmem
      unfold fuel
      simp only [hloop, kickBlock, Loop.fuel]
      omega
  | drainKick hloop hpend =>
      unfold fuel
      simp only [hloop, kickBlock, hpend, List.length_cons]
      omega
  | finish hloop | abort hloop =>
      unfold fuel
      simp only [hloop, Loop.fuel]
      split_ifs <;> simp only <;> omega
  | hashDone hloop hh =>
      unfold fuel
      simp only [hloop, hh, Loop.fuel, Option.elim, HasherIdx.fuel]
      omega
  | hashWait hloop hh =>
      unfold fuel
      simp only [hloop, Loop.fuel]
      split_ifs <;> simp only <;> omega
  | header hloop | headerFail hloop | headerErr hloop | outClosed hloop | gotDrop hloop
  | gotErr hloop | gotWrite hloop | write hloop
  | crash hloop | setErr hloop | reply hloop | noReply hloop | drained hloop | trailer hloop
  | trailerFail hloop | trailerErr hloop
  | closeSyn hloop =>
      unfold fuel
      simp only [hloop, Loop.fuel]
      omega
  | kickDrop hloop | kickErr hloop | kickFail hloop | kickLast hloop =>
      unfold fuel
      simp only [hloop, kickBlock, Loop.fuel]
      omega

end AsyncWriter

end Plz4
