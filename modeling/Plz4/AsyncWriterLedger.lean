/-
Where the bytes of the caller are.

What the calls have taken, the call under way included, is what the blocks handed over
and the block buffer hold, byte for byte and in order. When a flush is answered and when
`Close` waits, the buffer is empty.
-/
import Plz4.AsyncWriterFuel

set_option autoImplicit false

namespace Plz4

/-! ## Where the caller is in its call -/

/-- A count of the bytes that follow. -/
theorem take_add_length {src d : Bytes} {n : ℕ} (h : d = (src.drop n).take d.length) :
    src.take (n + d.length) = src.take n ++ d := by
  rw [List.take_add, ← h]

/-- What the caller does after `_flushBlk` belongs to this call. -/
def Then.In : Then → WCall → Prop
  | .write src n, .write src₀ => src = src₀.drop n ∧ n ≤ src₀.length
  | .readFrom r n, .readFrom r₀ => r.data = r₀.data.drop n ∧ n ≤ r₀.data.length
  | .flush, .flush | .close, .close => True
  | _, _ => False

/-- The caller is inside this call. -/
def Caller.In : Caller → WCall → Prop
  | .write src n, .write src₀ => src = src₀.drop n ∧ n ≤ src₀.length
  | .readFrom r n, .readFrom r₀ => r.data = r₀.data.drop n ∧ n ≤ r₀.data.length
  | .readErr _ n, .readFrom r₀ | .report n, .readFrom r₀ => n ≤ r₀.data.length
  | .queue k, call | .acquire k, call | .sendIn k, call => k.In call
  | .synSend, .flush | .synWait, .flush | .flushEnd, .flush => True
  | .closeSem, .close | .closeIn, .close | .wgWait, .close | .synJoin, .close => True
  | _, _ => False

/-- The bytes the call under way has taken. -/
def Then.count : Then → ℕ
  | .write _ n | .readFrom _ n => n
  | .flush | .close => 0

def Caller.count : Caller → ℕ
  | .write _ n | .readFrom _ n | .readErr _ n | .report n => n
  | .queue k | .acquire k | .sendIn k => k.count
  | _ => 0

/-- Where the block buffer has been handed over. -/
def Caller.emptied : Caller → Bool
  | .synSend | .synWait | .flushEnd | .closeSem | .closeIn | .wgWait | .synJoin => true
  | _ => false

namespace AsyncWriter

variable {Z : Clz4} {c : WriterCfg} {s s' : AsyncWriter Z} {a : Act} {script₀ : List WCall}

/-- What the call under way has taken. -/
def part (s : AsyncWriter Z) : Bytes :=
  match s.script with
  | [] => []
  | call :: _ => takenOf call ⟨s.caller.count, none⟩

structure Ledger (script₀ : List WCall) (s : AsyncWriter Z) : Prop where
  script : s.script = script₀.drop s.results.length
  inside : s.caller ≠ .idle → ∃ call rest, s.script = call :: rest ∧ s.caller.In call
  content : s.blks.flatten ++ s.cur = taken script₀ s.results ++ s.part
  emptied : s.caller.emptied = true → s.cur = []

theorem count_flushAt (s : AsyncWriter Z) (k : Then) : (s.flushAt k).count = k.count := by
  unfold flushAt
  split_ifs <;> rfl

theorem count_resumeAt (k : Then) : (resumeAt k).count = k.count := by
  rcases k with _ | _ | _ | _ <;> rfl

theorem in_flushAt (s : AsyncWriter Z) {k : Then} {call : WCall} (h : k.In call) :
    (s.flushAt k).In call := by
  unfold flushAt
  split_ifs <;> exact h

theorem in_resumeAt {k : Then} {call : WCall} (h : k.In call) : (resumeAt k).In call := by
  rcases k with _ | _ | _ | _ <;> cases call <;> exact h

theorem flushAt_ne_idle (s : AsyncWriter Z) (k : Then) : s.flushAt k ≠ .idle := by
  unfold flushAt
  split_ifs <;> rintro ⟨⟩

/-- A call that reports returns what it has taken. -/
theorem Reports.count {n : ℕ} (h : Reports s n) : s.caller.count = n := by
  cases h with
  | write hcaller | readFrom hcaller | report hcaller | flushEnd hcaller | flush hcaller
  | close hcaller => rw [hcaller]; rfl

theorem Reports.call {n : ℕ} (h : Reports s n) (hl : Ledger script₀ s) :
    ∃ call rest, s.script = call :: rest := by
  have hin : s.caller ≠ .idle → ∃ call rest, s.script = call :: rest := by
    intro hne
    obtain ⟨call, rest, hscript, -⟩ := hl.inside hne
    exact ⟨call, rest, hscript⟩
  cases h with
  | write hcaller | readFrom hcaller | report hcaller | flushEnd hcaller =>
      exact hin (by rw [hcaller]; rintro ⟨⟩)
  | flush hcaller hscript | close hcaller hscript => exact ⟨_, _, hscript⟩

/-- Only a `Close` on a closed writer begins at `reportError`. -/
theorem Reports.shut {n : ℕ} (h : Reports s n) (hl : Ledger script₀ s) {rest : List WCall}
    (hscript : s.script = .close :: rest) : s.srcBlk = none := by
  have hin : s.caller ≠ .idle → s.caller.In .close := by
    intro hne
    obtain ⟨call, rest', hscript', hin⟩ := hl.inside hne
    obtain ⟨rfl, -⟩ := List.cons.inj (hscript.symm.trans hscript')
    exact hin
  cases h with
  | write hcaller | readFrom hcaller | report hcaller | flushEnd hcaller =>
      rw [hcaller] at hin
      exact (hin (by rintro ⟨⟩)).elim
  | flush _ hflush => cases hscript.symm.trans hflush
  | close _ _ hblk => exact hblk

/-- A call returns with what it has taken. -/
theorem content_ret (h : Ledger script₀ s) {call : WCall} {rest : List WCall}
    (hscript : s.script = call :: rest) {n : ℕ} (hn : takenOf call ⟨n, none⟩ = s.part)
    (e : Option Err) :
    taken script₀ (s.results ++ [⟨n, e⟩]) = taken script₀ s.results ++ s.part := by
  rw [taken_concat (h.script ▸ hscript), ← hn]
  cases call <;> rfl

/-- Nothing is taken of a call that has not begun. -/
theorem part_of_count (h : s.caller.count = 0) : s.part = [] := by
  unfold part
  rw [h]
  split
  · rfl
  · exact takenOf_zero _ _

theorem part_cons {call : WCall} {rest : List WCall} (h : s.script = call :: rest) :
    s.part = takenOf call ⟨s.caller.count, none⟩ := by
  unfold part
  rw [h]

/-- Without an error the block buffer is there. -/
theorem Phases.srcBlk_of_err (h : Phases s) (herr : s.err = none) : s.srcBlk ≠ none :=
  fun hblk => (h.after hblk).2.1 herr

/-- A call begins, or goes on without taking bytes. -/
theorem Ledger.move (h : Ledger script₀ s) {call : WCall} {rest : List WCall}
    (hscript : s.script = call :: rest) {x : Caller} (hx : x.In call)
    (hcount : x.count = s.caller.count) (hcur : x.emptied = true → s.cur = []) :
    Ledger script₀ { s with caller := x } := by
  refine ⟨h.script, fun _ => ⟨call, rest, hscript, hx⟩, ?_, hcur⟩
  have hpart : ({ s with caller := x } : AsyncWriter Z).part = s.part := by
    rw [part_cons hscript, part_cons (s := { s with caller := x }) hscript, hcount]
  rw [hpart]
  exact h.content

/-- Bytes go into the buffer. -/
theorem Ledger.add (h : Ledger script₀ s) (hblk : s.srcBlk ≠ none) {call : WCall}
    {rest : List WCall} (hscript : s.script = call :: rest) {x : Caller} (hx : x.In call)
    {d : Bytes} (hd : takenOf call ⟨x.count, none⟩ = takenOf call ⟨s.caller.count, none⟩ ++ d)
    (hem : x.emptied = false) :
    Ledger script₀ { s with caller := x, srcBlk := s.fill d } := by
  refine ⟨h.script, fun _ => ⟨call, rest, hscript, hx⟩, ?_, fun he => ?_⟩
  · have hpart : ({ s with caller := x, srcBlk := s.fill d } : AsyncWriter Z).part = s.part ++ d := by
      rw [part_cons hscript, part_cons (s := { s with caller := x, srcBlk := s.fill d }) hscript, hd]
    rw [hpart, ← List.append_assoc, ← h.content]
    show s.blks.flatten ++ ((s.fill d).map Blk.data).getD [] = _
    rw [cur_fill hblk, List.append_assoc]
  · rw [hem] at he
    cases he

/-- A call returns. -/
theorem Ledger.ret (h : Ledger script₀ s) {call : WCall} {rest : List WCall}
    (hscript : s.script = call :: rest) {n : ℕ} (hn : takenOf call ⟨n, none⟩ = s.part)
    (e : Option Err) (rep : Bool) :
    Ledger script₀ { s with
      caller := .idle, script := s.script.tail, report := rep, results := s.results ++ [⟨n, e⟩] } := by
  refine ⟨?_, fun hne => absurd rfl hne, ?_, (by rintro ⟨⟩)⟩
  · show s.script.tail = script₀.drop (s.results ++ [_]).length
    rw [h.script, List.tail_drop, List.length_append, List.length_singleton]
  · show s.blks.flatten ++ s.cur = taken script₀ (s.results ++ [⟨n, e⟩]) ++ _
    rw [part_of_count rfl, List.append_nil, content_ret h hscript hn, h.content]

/-- The call the caller is at the head of. -/
theorem Ledger.at_write (h : Ledger script₀ s) {src : Bytes} {n : ℕ}
    (hcaller : s.caller = .write src n) :
    ∃ src₀ rest, s.script = .write src₀ :: rest ∧ src = src₀.drop n ∧ n ≤ src₀.length := by
  obtain ⟨call, rest, hscript, hin⟩ := h.inside (by rw [hcaller]; rintro ⟨⟩)
  rw [hcaller] at hin
  cases call with
  | write src₀ => exact ⟨src₀, rest, hscript, hin⟩
  | readFrom | flush | close => exact hin.elim

theorem Ledger.at_readFrom (h : Ledger script₀ s) {r : Rd} {n : ℕ}
    (hcaller : s.caller = .readFrom r n) :
    ∃ r₀ rest, s.script = .readFrom r₀ :: rest ∧ r.data = r₀.data.drop n ∧ n ≤ r₀.data.length := by
  obtain ⟨call, rest, hscript, hin⟩ := h.inside (by rw [hcaller]; rintro ⟨⟩)
  rw [hcaller] at hin
  cases call with
  | readFrom r₀ => exact ⟨r₀, rest, hscript, hin⟩
  | write | flush | close => exact hin.elim

/-- A pass of `ReadFrom` took bytes of its reader. -/
theorem Ledger.read (h : Ledger script₀ s) (hblk : s.srcBlk ≠ none) {r : Rd} {n : ℕ}
    (hcaller : s.caller = .readFrom r n) {d : Bytes} (hd : d = r.data.take d.length) {x : Caller}
    (hcount : x.count = n + d.length) (hem : x.emptied = false)
    (hin : ∀ r₀ : Rd, r.data.drop d.length = r₀.data.drop (n + d.length) →
      n + d.length ≤ r₀.data.length → x.In (.readFrom r₀)) :
    Ledger script₀ { s with caller := x, srcBlk := s.fill d } := by
  obtain ⟨r₀, rest, hscript, hdata, hn⟩ := h.at_readFrom hcaller
  rw [hdata] at hd
  have hlen : n + d.length ≤ r₀.data.length := by
    have := congrArg List.length hd
    rw [List.length_take, List.length_drop] at this
    omega
  refine h.add hblk hscript (hin r₀ ?_ hlen) ?_ hem
  · rw [hdata, List.drop_drop]
  · rw [hcount, hcaller]
    exact take_add_length hd

/-- A pass of `Write` copied bytes of its source. -/
theorem Ledger.copy (h : Ledger script₀ s) (hblk : s.srcBlk ≠ none) {src : Bytes} {n k : ℕ}
    (hcaller : s.caller = .write src n) (hk : k ≤ src.length) {x : Caller}
    (hcount : x.count = n + k) (hem : x.emptied = false)
    (hin : ∀ src₀ : Bytes, src.drop k = src₀.drop (n + k) → n + k ≤ src₀.length →
      x.In (.write src₀)) :
    Ledger script₀ { s with caller := x, srcBlk := s.fill (src.take k) } := by
  obtain ⟨src₀, rest, hscript, hsrc, hn⟩ := h.at_write hcaller
  have hlen : src.length = src₀.length - n := by rw [hsrc, List.length_drop]
  refine h.add hblk hscript (hin src₀ ?_ (by omega)) ?_ hem
  · rw [hsrc, List.drop_drop]
  · rw [hcount, hcaller, hsrc]
    exact List.take_add

theorem emptied_flushAt (s : AsyncWriter Z) (k : Then) : (s.flushAt k).emptied = false := by
  unfold flushAt
  split_ifs <;> rfl

theorem Local.ledger {x : Caller} {script : List WCall} {b : Option Blk} {rep : Bool}
    {rs : List CallRes} {es : List Err} (hloc : Local c s x script b rep rs es)
    (h : Ledger script₀ s) (hph : Phases s) :
    Ledger script₀ { s with
      caller := x, script := script, srcBlk := b, report := rep, results := rs,
      srcErrs := es } := by
  cases hloc with
  -- a call returns the bytes it has taken
  | @report n hrep =>
      obtain ⟨call, rest, hscript⟩ := hrep.call h
      refine h.ret hscript ?_ s.err _
      rw [part_cons hscript, hrep.count]
  | flushNone hcaller hscript =>
      refine h.ret hscript ?_ none _
      rw [part_of_count (by rw [hcaller]; rfl)]
      rfl
  | write hcaller hscript =>
      refine h.move hscript ?_ (by rw [hcaller]; rfl) (by rintro ⟨⟩)
      exact ⟨rfl, Nat.zero_le _⟩
  | readFrom hcaller hscript =>
      refine h.move hscript ?_ (by rw [hcaller]; rfl) (by rintro ⟨⟩)
      exact ⟨rfl, Nat.zero_le _⟩
  | flushBlk hcaller hscript | closeBlk hcaller hscript =>
      refine h.move hscript (in_flushAt s trivial) ?_ (fun he => ?_)
      · rw [count_flushAt, hcaller]
        rfl
      · rw [emptied_flushAt] at he
        cases he
  | flushSyn hcaller hscript herr hcur | close hcaller hscript herr hcur =>
      exact h.move hscript trivial (by rw [hcaller]; rfl) (fun _ => hcur)
  -- bytes move from the source to the block, and the count goes with them
  | @writeFull src n k hcaller hsrc herr hk hfull =>
      exact h.copy (hph.srcBlk_of_err herr) hcaller (by omega) (count_flushAt s _)
        (emptied_flushAt s _) (fun src₀ hdrop hle => in_flushAt s ⟨hdrop, hle⟩)
  | @writeMore src n k hcaller hsrc herr hk hfull =>
      exact h.copy (hph.srcBlk_of_err herr) hcaller (by omega) rfl rfl
        (fun src₀ hdrop hle => ⟨hdrop, hle⟩)
  | @readFull r r' n d hcaller herr hread =>
      obtain ⟨hd, hle, hdata, -⟩ := Rd.readFull_none hread
      have hlen : d.length = c.opts.bsz - s.cur.length := by
        rw [hd, List.length_take]
        omega
      refine h.read (hph.srcBlk_of_err herr) hcaller (hlen ▸ hd) (count_flushAt s _)
        (emptied_flushAt s _) (fun r₀ hdrop hle => in_flushAt s ⟨?_, hle⟩)
      rw [hdata, ← hlen, hdrop]
  | @readShort r r' n d hcaller herr hread =>
      obtain ⟨hd, -, hdata, -⟩ := Rd.readFull_some hread
      refine h.read (hph.srcBlk_of_err herr) hcaller (by rw [hd, List.take_length]) rfl rfl
        (fun r₀ hdrop hle => ⟨?_, hle⟩)
      rw [hdata, ← hdrop, hd, List.drop_length]
  | readEof hcaller herr hread =>
      obtain ⟨hd, -⟩ := Rd.readFull_some hread
      exact h.read (hph.srcBlk_of_err herr) hcaller (by rw [hd, List.take_length]) rfl rfl
        (fun r₀ _ hle => hle)
  | @readFail r r' n d e hcaller herr hne hread =>
      obtain ⟨hd, -⟩ := Rd.readFull_some hread
      have h' := h.read (x := .readErr e (n + d.length)) (hph.srcBlk_of_err herr) hcaller
        (by rw [hd, List.take_length]) rfl rfl (fun r₀ _ hle => hle)
      exact ⟨h'.script, h'.inside, h'.content, h'.emptied⟩

/-- The caller goes on inside its call. -/
theorem Ledger.within (h : Ledger script₀ s) (hne : s.caller ≠ .idle)
    (hscript : s'.script = s.script) (hresults : s'.results = s.results) (hblks : s'.blks = s.blks)
    (hcur : s'.cur = s.cur) (hx : ∀ call, s.caller.In call → s'.caller.In call)
    (hcount : s'.caller.count = s.caller.count)
    (hem : s'.caller.emptied = true → s.caller.emptied = true) : Ledger script₀ s' := by
  obtain ⟨call, rest, hcall, hin⟩ := h.inside hne
  have h' := h.move hcall (hx call hin) hcount (fun he => h.emptied (hem he))
  have hpart : s'.part = ({ s with caller := s'.caller } : AsyncWriter Z).part := by
    rw [part_cons (hscript.trans hcall), part_cons (s := { s with caller := s'.caller }) hcall]
  refine ⟨?_, ?_, ?_, fun he => ?_⟩
  · rw [hscript, hresults]
    exact h'.script
  · rw [hscript]
    exact h'.inside
  · rw [hblks, hcur, hresults, hpart]
    exact h'.content
  · rw [hcur]
    exact h'.emptied he

/-- The block is handed over. -/
theorem Ledger.hand (h : Ledger script₀ s) {k : Then} {b : Blk} (hcaller : s.caller = .sendIn k)
    (hblk : s.srcBlk = some b) {blk : Option Blk} (hempty : (blk.map Blk.data).getD [] = []) :
    Ledger script₀ { s with
      caller := resumeAt k, srcBlk := blk, blks := s.blks ++ [b.data] } := by
  obtain ⟨call, rest, hscript, hin⟩ := h.inside (by rw [hcaller]; rintro ⟨⟩)
  rw [hcaller] at hin
  refine ⟨h.script, fun _ => ⟨call, rest, hscript, in_resumeAt hin⟩, ?_, fun _ => hempty⟩
  have hcur : s.cur = b.data := by
    unfold cur
    rw [hblk]
    rfl
  rw [part_cons (s := { s with caller := resumeAt k, srcBlk := blk, blks := s.blks ++ [b.data] })
    hscript]
  show (s.blks ++ [b.data]).flatten ++ (blk.map Blk.data).getD [] = _ ++ takenOf call ⟨_, _⟩
  rw [hempty, List.append_nil, List.flatten_append, List.flatten_singleton, ← hcur, h.content,
    part_cons hscript, hcaller]
  show _ = _ ++ takenOf call ⟨(resumeAt k).count, _⟩
  rw [count_resumeAt]
  rfl

/-- `Close` returns. -/
theorem Ledger.closed (h : Ledger script₀ s) (hcaller : s.caller = .synJoin) :
    Ledger script₀ s.closeEnd := by
  obtain ⟨call, rest, hscript, hin⟩ := h.inside (by rw [hcaller]; rintro ⟨⟩)
  have hpart : s.part = [] := part_of_count (by rw [hcaller]; rfl)
  have hcur : s.cur = [] := h.emptied (by rw [hcaller]; rfl)
  have hret := h.ret hscript (n := 0) (by rw [hpart, takenOf_zero])
    (if s.report then none else s.err) true
  refine ⟨hret.script, hret.inside, ?_, (by rintro ⟨⟩)⟩
  have hcontent := hret.content
  change s.blks.flatten ++ s.cur = _ at hcontent
  rw [hcur] at hcontent
  exact hcontent

/-- **Every step keeps the ledger.** -/
theorem Ledger.step (h : Ledger script₀ s) (hph : Phases s) (hstep : Step c s a s') :
    Ledger script₀ s' := by
  cases hstep with
  | loc hl => exact hl.ledger h hph
  | readErr hcaller =>
      refine h.within (by rw [hcaller]; rintro ⟨⟩) rfl rfl rfl rfl ?_ (by rw [hcaller]; rfl)
        (by rintro ⟨⟩)
      rw [hcaller]
      rintro (_ | _ | _ | _) hin <;> exact hin
  | queue hcaller | acquire hcaller =>
      refine h.within (by rw [hcaller]; rintro ⟨⟩) rfl rfl rfl rfl ?_ (by rw [hcaller]; rfl)
        (by rintro ⟨⟩)
      rw [hcaller]
      exact fun _ hin => hin
  | closeSem hcaller | closeIn hcaller | wgWait hcaller | synSend hcaller | synReply hcaller
  | recvClosed hcaller =>
      refine h.within (by rw [hcaller]; rintro ⟨⟩) rfl rfl rfl rfl ?_ (by rw [hcaller]; rfl)
        (by rw [hcaller]; exact fun _ => rfl)
      rw [hcaller]
      rintro (_ | _ | _ | _) hin <;> exact hin
  | join hcaller hsyn => exact h.closed hcaller
  | sendIn hcaller hblk =>
      have h' := h.hand hcaller hblk (rfl : ((some ⟨0, []⟩ : Option Blk).map Blk.data).getD [] = [])
      exact ⟨h'.script, h'.inside, h'.content, h'.emptied⟩
  | synReplyJoin hcaller hloop =>
      have := hph.replies hloop
      rw [hcaller] at this
      cases this
  | _ => exact ⟨h.script, h.inside, h.content, h.emptied⟩

theorem ledger_newAsyncWriter (Z : Clz4) (o : OptsT) (script : List WCall) :
    Ledger script (newAsyncWriter Z o script) := by
  refine ⟨rfl, fun hne => absurd rfl hne, ?_, (by rintro ⟨⟩)⟩
  rw [part_of_count rfl]
  unfold taken
  rw [show (newAsyncWriter Z o script).results = [] from rfl, List.zipWith_nil_right]
  rfl

theorem ledger_run {as : List Act}
    (hrun : Machine.run (step c) (newAsyncWriter Z c.opts script₀) as = some s) :
    Ledger script₀ s :=
  (Machine.invariant_run (I := fun s => Phases s ∧ Ledger script₀ s)
    (fun _ _ _ h hstep => ⟨h.1.step (step_spec hstep), h.2.step h.1 (step_spec hstep)⟩)
    ⟨phases_newAsyncWriter Z c.opts script₀, ledger_newAsyncWriter Z c.opts script₀⟩ hrun).2

end AsyncWriter

end Plz4
