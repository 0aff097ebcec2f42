/-
The content hash of the asynchronous writer.

The hasher has hashed the blocks it took off its queue, and together with those still
queued they are the blocks handed over so far: the caller queues a block before it hands
it over. The queue is closed after the last block, so the hash in the trailer is that of
all of them.
-/
import Plz4.AsyncWriterPhases

set_option autoImplicit false

namespace Plz4

open Xxh32

/-- The caller has queued the block it is about to hand over. -/
def Caller.hashed : Caller → Bool
  | .acquire _ | .sendIn _ => true
  | _ => false

/-- The write loop has closed the queue of the hasher, if there is one. -/
def Loop.hashed : Loop → Bool
  | .hashWait _ | .trailer _ | .setErr _ .closeSyn | .closeSyn | .done => true
  | _ => false

/-- The write loop is on its way to the trailer. -/
def Loop.clean : Loop → Bool
  | .hashDone true | .hashWait true | .trailer _ => true
  | _ => false

/-- The write loop stops the hasher in the error state. -/
def Loop.aborts : Loop → Bool
  | .hashDone false | .hashWait false => true
  | _ => false

/-- What a message for the hasher adds to the hashed blocks. -/
def Ref.data : Ref → List Bytes
  | .queue b => [b.data]
  | .free _ => []

theorem Caller.hashed_of_starts {x : Caller} (h : x.starts = true) : x.hashed = false := by
  cases x <;> first | rfl | cases h

theorem Loop.closing_of_hashed {l : Loop} (h : l.hashed = true) : l.closing = true := by
  cases l with
  | setErr e k =>
      cases k with
      | closeSyn => rfl
      | select | reply => cases h
  | hashWait | trailer | closeSyn | done => rfl
  | _ => cases h

theorem Loop.closing_of_clean {l : Loop} (h : l.clean = true) : l.closing = true := by
  cases l <;> first | rfl | cases h

namespace AsyncWriter

variable {Z : Clz4} {c : WriterCfg} {s s' : AsyncWriter Z} {a : Act}

/-- The blocks handed over, the one queued for the hasher included. -/
def handed (s : AsyncWriter Z) : List Bytes :=
  s.blks ++ if s.caller.hashed then [s.cur] else []

/-- The hasher has hashed all of `handed` but what is queued. -/
def Hashed (s : AsyncWriter Z) (h : HasherIdx) : Prop :=
  ∃ ps, h.hash = hashAll ps ∧ ps ++ h.q.flatMap Ref.data = s.handed

structure Hashing (c : WriterCfg) (s : AsyncWriter Z) : Prop where
  on : s.hasher.isSome = c.opts.contentChecksum
  hashed : ∀ h, s.hasher = some h → s.Hashed h
  closed : ∀ h, s.hasher = some h → h.closed = true → s.loop.hashed = true
  exited : ∀ h, s.hasher = some h → h.exited = true → h.q = [] ∧ h.closed = true
  done : ∀ clean, s.loop = .hashDone clean → s.hasher.isSome = true
  wait : ∀ clean, s.loop = .hashWait clean → ∃ h, s.hasher = some h ∧ h.closed = true
  queue : ∀ k, s.caller = .queue k → s.hasher.isSome = true
  freeSend : ∀ t ∈ s.tasks, ∀ b out, t.loc = .freeSend b out → s.hasher.isSome = true
  clean : s.loop.clean = true → s.err = none
  aborts : s.loop.aborts = true → s.err ≠ none
  trailer : ∀ xxh, s.loop = .trailer xxh → xxh = contentHash c.opts s.blks

/-! ## What has been hashed -/

/-- The hasher stays as it is, and so do the blocks. -/
theorem Hashed.same {h : HasherIdx} (hh : s.Hashed h) (hblks : s'.handed = s.handed) :
    s'.Hashed h := by
  obtain ⟨ps, hhash, hps⟩ := hh
  exact ⟨ps, hhash, hps.trans hblks.symm⟩

theorem handed_of_not {s : AsyncWriter Z} (h : s.caller.hashed = false) : s.handed = s.blks := by
  unfold handed
  rw [h, if_neg Bool.false_ne_true, List.append_nil]

/-- The caller moves, away from a block queued. -/
theorem Hashed.of_not {h : HasherIdx} (hh : s.Hashed h) (hc : s.caller.hashed = false)
    (hc' : s'.caller.hashed = false) (hblks : s'.blks = s.blks) : s'.Hashed h :=
  hh.same (by rw [handed_of_not hc, handed_of_not hc', hblks])

theorem hashed_resumeAt (k : Then) : (resumeAt k).hashed = false := by
  rcases k with _ | _ | _ | _ <;> rfl

/-- Where there is a hasher the caller goes to its queue first. -/
theorem Local.not_hashed {x : Caller} {script : List WCall} {b : Option Blk} {rep : Bool}
    {rs : List CallRes} {es : List Err} (h : Local c s x script b rep rs es)
    (hh : s.hasher.isSome = true) :
    x.hashed = false := by
  have hflush : ∀ k, (s.flushAt k).hashed = false := by
    intro k
    unfold flushAt
    rw [if_pos hh]
    rfl
  cases h with
  | flushBlk | closeBlk | writeFull | readFull => exact hflush _
  | _ => rfl

/-- Nor does it go there where there is none. -/
theorem Local.queue {x : Caller} {script : List WCall} {b : Option Blk} {rep : Bool}
    {rs : List CallRes} {es : List Err} (h : Local c s x script b rep rs es) {k : Then}
    (hx : x = .queue k) :
    s.hasher.isSome = true := by
  have hflush : ∀ j, s.flushAt j = .queue k → s.hasher.isSome = true := by
    intro j hj
    unfold flushAt at hj
    split_ifs at hj with hh
    exact hh
  cases h with
  | flushBlk | closeBlk | writeFull | readFull => exact hflush _ hx
  | _ => cases hx

theorem hashed_step (h : Hashing c s) (hstep : Step c s a s') :
    ∀ hh, s'.hasher = some hh → s'.Hashed hh := by
  intro hh hs'
  cases hstep with
  | loc hl =>
      have hsome : s.hasher.isSome = true := by rw [show s.hasher = some hh from hs']; rfl
      exact (h.hashed hh hs').of_not (Caller.hashed_of_starts hl.starts) (hl.not_hashed hsome) rfl
  | @queue k b hh' hcaller hblk hsome =>
      obtain ⟨ps, hhash, hps⟩ := h.hashed hh' hsome
      obtain rfl := Option.some.inj hs'
      refine ⟨ps, hhash, ?_⟩
      rw [handed_of_not (by rw [hcaller]; rfl)] at hps
      show ps ++ (hh'.q ++ [Ref.queue b]).flatMap Ref.data = s.blks ++ [s.cur]
      rw [List.flatMap_append, ← List.append_assoc, hps, cur, hblk]
      rfl
  -- queued and handed over: the block counts from the one on and not again at the other
  | acquire hcaller =>
      refine (h.hashed hh hs').same ?_
      unfold handed
      rw [hcaller]
      rfl
  | @sendIn i k b t hcaller hblk =>
      refine (h.hashed hh hs').same ?_
      rw [handed_of_not (hashed_resumeAt k)]
      unfold handed
      rw [hcaller, cur, hblk]
      rfl
  -- a request to free a block adds no bytes
  | @freeSend i t b out hh' hi hloc hsome =>
      obtain ⟨ps, hhash, hps⟩ := h.hashed hh' hsome
      obtain rfl := Option.some.inj hs'
      refine ⟨ps, hhash, ?_⟩
      show ps ++ (hh'.q ++ [Ref.free b.blk]).flatMap Ref.data = s.handed
      rw [List.flatMap_append, ← List.append_assoc, hps]
      exact List.append_nil _
  | hashBump hsome | hashExit hsome | hashDone _ hsome =>
      obtain ⟨ps, hhash, hps⟩ := h.hashed _ hsome
      obtain rfl := Option.some.inj hs'
      exact ⟨ps, hhash, hps⟩
  | @hashQueue hh' b q hsome hbusy hq =>
      obtain ⟨ps, hhash, hps⟩ := h.hashed hh' hsome
      obtain rfl := Option.some.inj hs'
      refine ⟨ps ++ [b.data], ?_, ?_⟩
      · rw [hashAll_concat, ← hhash]
      · rw [hq, List.flatMap_cons, ← List.append_assoc] at hps
        exact hps
  | @hashFree hh' b q hsome hbusy hq =>
      obtain ⟨ps, hhash, hps⟩ := h.hashed hh' hsome
      obtain rfl := Option.some.inj hs'
      refine ⟨ps, hhash, ?_⟩
      rw [hq, List.flatMap_cons] at hps
      exact hps
  | readErr hcaller | closeSem hcaller | closeIn hcaller | wgWait hcaller | recvClosed hcaller
  | join hcaller | synSend hcaller | synReply hcaller | synReplyJoin hcaller =>
      exact (h.hashed hh hs').of_not (by rw [hcaller]; rfl) rfl rfl
  | _ => exact h.hashed hh hs'

theorem on_step (h : Hashing c s) (hstep : Step c s a s') :
    s'.hasher.isSome = c.opts.contentChecksum := by
  have hon := h.on
  cases hstep with
  | queue _ _ hh | freeSend _ _ hh | hashBump hh | hashQueue hh | hashFree hh | hashExit hh
  | hashDone _ hh =>
      rw [hh] at hon
      exact hon
  | _ => exact hon

theorem closed_step (h : Hashing c s) (hstep : Step c s a s') :
    ∀ hh, s'.hasher = some hh → hh.closed = true → s'.loop.hashed = true := by
  intro hh hs' hcl
  have hloop : ∀ l : Loop, s.hasher = some hh → s.loop = l → l.hashed = true :=
    fun l hs hl => hl ▸ h.closed hh hs hcl
  cases hstep with
  | queue _ _ hsome _ hopen | freeSend _ _ hsome _ hopen =>
      obtain rfl := Option.some.inj hs'
      rw [show _ = true from hcl] at hopen
      cases hopen
  | hashBump hsome | hashQueue hsome | hashFree hsome | hashExit hsome =>
      obtain rfl := Option.some.inj hs'
      exact h.closed _ hsome hcl
  | hashDone => rfl
  | trailer | trailerFail | trailerErr | closeSyn => rfl
  | hashWait hl =>
      show (if _ then _ else _ : Loop).hashed = true
      split_ifs <;> rfl
  | sendOut _ _ hl | synSend _ hl | synReply _ hl | synReplyJoin _ hl | header hl
  | headerFail hl | headerErr hl | outClosed hl
  | gotDrop hl | gotErr hl | gotWrite hl | gotPark hl | write hl | crash hl | kickDrop hl
  | kickErr hl
  | kickFail hl | kickNext hl | kickLast hl | setErr hl | reply hl | noReply hl | drained hl
  | finish hl | abort hl =>
      cases hloop _ hs' hl
  | _ => exact h.closed hh hs' hcl

theorem exited_step (h : Hashing c s) (hstep : Step c s a s') :
    ∀ hh, s'.hasher = some hh → hh.exited = true → hh.q = [] ∧ hh.closed = true := by
  intro hh hs' hex
  cases hstep with
  | queue _ _ hsome _ hopen | freeSend _ _ hsome _ hopen =>
      obtain rfl := Option.some.inj hs'
      rw [(h.exited _ hsome hex).2] at hopen
      cases hopen
  | @hashBump hh' hsome hbusy =>
      obtain rfl := Option.some.inj hs'
      exact h.exited hh' hsome hex
  | hashQueue hsome hbusy hq | hashFree hsome hbusy hq =>
      obtain rfl := Option.some.inj hs'
      rw [(h.exited _ hsome hex).1] at hq
      cases hq
  | hashExit hsome hbusy hq hcl =>
      obtain rfl := Option.some.inj hs'
      exact ⟨hq, hcl⟩
  | hashDone _ hsome =>
      obtain rfl := Option.some.inj hs'
      exact ⟨(h.exited _ hsome hex).1, rfl⟩
  | _ => exact h.exited hh hs' hex

theorem done_step (h : Hashing c s) (hstep : Step c s a s') :
    ∀ clean, s'.loop = .hashDone clean → s'.hasher.isSome = true := by
  intro clean hl
  cases hstep with
  | finish hloop | abort hloop =>
      change (if _ then _ else _) = Loop.hashDone clean at hl
      split_ifs at hl with hsome
      exact hsome
  | hashWait hloop =>
      change (if _ then _ else _) = Loop.hashDone clean at hl
      split_ifs at hl
  | queue | freeSend | hashBump | hashQueue | hashFree | hashExit => rfl
  | drainKick => exact h.done clean hl
  | sendOut | synSend | synReply | synReplyJoin | header | headerFail | headerErr | outClosed
  | gotDrop | gotErr | gotWrite
  | gotPark | write | crash | kickDrop | kickErr | kickFail | kickNext | kickLast | setErr | reply
  | noReply | drained | hashDone | trailer | trailerFail | trailerErr | closeSyn => cases hl
  | _ => exact h.done clean hl

theorem wait_step (h : Hashing c s) (hstep : Step c s a s') :
    ∀ clean, s'.loop = .hashWait clean → ∃ hh, s'.hasher = some hh ∧ hh.closed = true := by
  intro clean hl
  cases hstep with
  | hashDone => exact ⟨_, rfl, rfl⟩
  | finish hloop | abort hloop | hashWait hloop =>
      change (if _ then _ else _) = Loop.hashWait clean at hl
      split_ifs at hl
  | queue _ _ hsome | freeSend _ _ hsome | hashBump hsome | hashQueue hsome | hashFree hsome
  | hashExit hsome =>
      obtain ⟨hh, hsome', hcl⟩ := h.wait clean hl
      rw [hsome] at hsome'
      obtain rfl := Option.some.inj hsome'
      exact ⟨_, rfl, hcl⟩
  | sendOut | synSend | synReply | synReplyJoin | header | headerFail | headerErr | outClosed
  | gotDrop | gotErr | gotWrite
  | gotPark | write | crash | kickDrop | kickErr | kickFail | kickNext | kickLast | setErr | reply
  | noReply | drained | trailer | trailerFail | trailerErr | closeSyn => cases hl
  | _ => exact h.wait clean hl

/-- The hasher is there for the whole life of the writer. -/
theorem isSome_step (hstep : Step c s a s') (hh : s.hasher.isSome = true) :
    s'.hasher.isSome = true := by
  cases hstep with
  | queue | freeSend | hashBump | hashQueue | hashFree | hashExit | hashDone => rfl
  | _ => exact hh

theorem queue_step (h : Hashing c s) (hstep : Step c s a s') :
    ∀ k, s'.caller = .queue k → s'.hasher.isSome = true := by
  intro k hk
  refine isSome_step hstep ?_
  cases hstep with
  | loc hl => exact hl.queue hk
  | @sendIn _ k' => rcases k' with _ | _ | _ | _ <;> cases hk
  | readErr | queue | acquire | closeSem | closeIn | wgWait | recvClosed | join | synSend | synReply
  | synReplyJoin => cases hk
  | _ => exact h.queue k hk

theorem freeSend_step (h : Hashing c s) (hstep : Step c s a s') :
    ∀ t ∈ s'.tasks, ∀ b out, t.loc = .freeSend b out → s'.hasher.isSome = true := by
  have hsame : ∀ t ∈ s.tasks, ∀ b out, t.loc = .freeSend b out → s'.hasher.isSome = true :=
    fun t ht b out hl => isSome_step hstep (h.freeSend t ht b out hl)
  have hafter : ∀ b out b' out', afterFree b out ≠ .freeSend b' out' := by
    rintro b (_ | out) b' out' ⟨⟩
  cases hstep with
  | sendIn hcaller hblk hi hloc hcl =>
      intro t ht
      rcases List.mem_append.mp ht with ht | ht
      · exact Pool.forall_set hsame (by rintro _ _ ⟨⟩) t ht
      · unfold spawned at ht
        split_ifs at ht
        · rw [List.mem_singleton.mp ht]
          rintro _ _ ⟨⟩
        · cases ht
  | exit | skip | compress | release | sendOut => exact Pool.forall_set hsame (by rintro _ _ ⟨⟩)
  | freeAsk hi hloc hsome =>
      refine Pool.forall_set hsame (fun _ _ _ => ?_)
      show s.hasher.isSome = true
      rw [hsome]
      rfl
  | freeNow | freeSend => exact Pool.forall_set hsame (fun b out hl => absurd hl (hafter _ _ b out))
  | _ => exact hsame

/-- The closing write loop is past everything that could still raise an error. -/
theorem clean_step (h : Hashing c s) (hph : Phases s) (hstep : Step c s a s') :
    s'.loop.clean = true → s'.err = none := by
  intro hcl
  have hne : s.loop.clean = true → s.loop ≠ .done := by
    intro hcl hdone
    rw [hdone] at hcl
    cases hcl
  cases hstep with
  -- the caller is at `synJoin`, and sets no error
  | readErr hc =>
      have hjoin := hph.synJoin (Loop.closing_of_clean hcl) (hne hcl)
      rw [hc] at hjoin
      cases hjoin
  | join hc hsyn => exact absurd (hph.syn.mp hsyn) (hne hcl)
  | finish hloop herr => exact herr
  | abort hloop herr =>
      change (if _ then _ else _ : Loop).clean = true at hcl
      split_ifs at hcl <;> cases hcl
  | @hashDone clean hh hloop hsome =>
      refine h.clean ?_
      rw [hloop]
      rcases clean with _ | _
      · cases hcl
      · rfl
  | @hashWait clean hh hloop hsome hex =>
      refine h.clean ?_
      rw [hloop]
      rcases clean with _ | _
      · cases hcl
      · rfl
  | sendOut | synSend | synReply | synReplyJoin | header | headerFail | headerErr | outClosed
  | gotDrop | gotErr | gotWrite
  | gotPark | write | crash | kickDrop | kickErr | kickFail | kickNext | kickLast | setErr | reply
  | noReply | drained | trailer | trailerFail | trailerErr | closeSyn => cases hcl
  | drainKick hloop => 
      change s.loop.clean = true at hcl
      rw [hloop] at hcl
      cases hcl
  | _ => exact h.clean hcl

theorem aborts_step (h : Hashing c s) (hstep : Step c s a s') :
    s'.loop.aborts = true → s'.err ≠ none := by
  intro hab
  refine err_ne_step hstep ?_
  cases hstep with
  | abort hloop herr => exact herr
  | finish hloop herr =>
      change (if _ then _ else _ : Loop).aborts = true at hab
      split_ifs at hab <;> cases hab
  | @hashDone clean hh hloop hsome =>
      refine h.aborts ?_
      rw [hloop]
      rcases clean with _ | _
      · rfl
      · cases hab
  | @hashWait clean hh hloop hsome hex =>
      change (if _ then _ else _ : Loop).aborts = true at hab
      split_ifs at hab <;> cases hab
  | sendOut | synSend | synReply | synReplyJoin | header | headerFail | headerErr | outClosed
  | gotDrop | gotErr | gotWrite
  | gotPark | write | crash | kickDrop | kickErr | kickFail | kickNext | kickLast | setErr | reply
  | noReply | drained | trailer | trailerFail | trailerErr | closeSyn => cases hab
  | _ => exact h.aborts hab

theorem trailer_step (h : Hashing c s) (hph : Phases s) (hstep : Step c s a s') :
    ∀ xxh, s'.loop = .trailer xxh → xxh = contentHash c.opts s'.blks := by
  intro xxh hl
  cases hstep with
  | sendIn hc =>
      have hloop : s.loop = .trailer xxh := hl
      have hjoin := hph.synJoin (by rw [hloop]; rfl) (by rw [hloop]; rintro ⟨⟩)
      rw [hc] at hjoin
      cases hjoin
  | finish hloop =>
      change (if _ then _ else _) = Loop.trailer xxh at hl
      split_ifs at hl with hsome
      obtain rfl := Loop.trailer.inj hl
      have hon := h.on
      unfold contentHash
      rw [if_neg]
      rw [← hon]
      exact hsome
  | abort hloop =>
      change (if _ then _ else _) = Loop.trailer xxh at hl
      split_ifs at hl
  | @hashWait clean hh hloop hsome hex =>
      change (if _ then _ else _) = Loop.trailer xxh at hl
      split_ifs at hl with hcl
      obtain rfl := Loop.trailer.inj hl
      -- the hasher has exited, so its sum is that of all blocks
      have hon : true = c.opts.contentChecksum := by
        rw [← h.on, hsome]
        rfl
      have hjoin := hph.synJoin (by rw [hloop]; rfl) (by rw [hloop]; rintro ⟨⟩)
      obtain ⟨ps, hhash, hps⟩ := h.hashed hh hsome
      rw [(h.exited hh hsome hex).1, List.flatMap_nil, List.append_nil,
        handed_of_not (by rw [hjoin]; rfl)] at hps
      show _ = contentHash c.opts s.blks
      unfold contentHash
      rw [if_pos hon.symm, hhash, hps]
  | sendOut | synSend | synReply | synReplyJoin | header | headerFail | headerErr | outClosed
  | gotDrop | gotErr | gotWrite
  | gotPark | write | crash | kickDrop | kickErr | kickFail | kickNext | kickLast | setErr | reply
  | noReply | drained | hashDone | trailer | trailerFail | trailerErr | closeSyn => cases hl
  | drainKick hloop => exact h.trailer xxh hl
  | _ => exact h.trailer xxh hl

/-- **Every step keeps the hashing.** -/
theorem Hashing.step (h : Hashing c s) (hph : Phases s) (hstep : Step c s a s') : Hashing c s' :=
  ⟨on_step h hstep, hashed_step h hstep, closed_step h hstep, exited_step h hstep,
    done_step h hstep, wait_step h hstep, queue_step h hstep, freeSend_step h hstep,
    clean_step h hph hstep, aborts_step h hstep, trailer_step h hph hstep⟩

theorem hashing_newAsyncWriter (Z : Clz4) (c : WriterCfg) (script : List WCall) :
    Hashing c (newAsyncWriter Z c.opts script) := by
  have hhash : ∀ h, (newAsyncWriter Z c.opts script).hasher = some h →
      h = ⟨[], .zero, 0, false, false, false⟩ := by
    intro h hh
    change (if _ then _ else _) = some h at hh
    split_ifs at hh
    exact (Option.some.inj hh).symm
  refine ⟨?_, ?_, ?_, ?_, ?_, ?_, ?_, ?_, ?_, ?_, ?_⟩
  · show (if c.opts.contentChecksum = true then _ else _ : Option HasherIdx).isSome = _
    split_ifs with hcc
    · exact hcc.symm
    · exact (Bool.not_eq_true _ ▸ hcc).symm
  · intro h hh
    rw [hhash h hh]
    exact ⟨[], rfl, rfl⟩
  · intro h hh hcl
    rw [hhash h hh] at hcl
    cases hcl
  · intro h hh hcl
    rw [hhash h hh] at hcl
    cases hcl
  · rintro _ ⟨⟩
  · rintro _ ⟨⟩
  · rintro _ ⟨⟩
  · intro t ht b out hl
    rw [List.eq_of_mem_replicate ht] at hl
    cases hl
  · rintro ⟨⟩
  · rintro ⟨⟩
  · rintro _ ⟨⟩

end AsyncWriter

end Plz4
