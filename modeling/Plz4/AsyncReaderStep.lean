/-
What one step of the asynchronous reader can do, guards included. The invariants
are proved over `Step`; none of them looks at `step` again.
-/
import Plz4.AsyncReader

set_option autoImplicit false

namespace Plz4

namespace AsyncReader

/-- The steps, one constructor for each branch a thread can take. -/
inductive Step (c : ReaderCfg) (s : AsyncReader) : Act → AsyncReader → Prop
  | acquire (hdisp : s.disp = .acquire) (hsem : s.sem < c.nPending) :
      Step c s .acquire { s with sem := s.sem + 1, disp := .read }
  | readError {e : Err} {fr : FrameReader} {src : Bytes} (hdisp : s.disp = .read)
      (hread : s.fr.read s.src = ((.error e, fr), src)) :
      Step c s .read { s with
        src := src, fr := fr, disp := .closeIn (some e), borrowed := s.borrowed + 1,
        returned := s.returned ++ [s.borrowed] }
  | readStored {f : FrameT} {fr : FrameReader} {src : Bytes} (hdisp : s.disp = .read)
      (hread : s.fr.read s.src = ((.ok f, fr), src)) (hunc : f.uncompressed = true) :
      Step c s .read { s with
        src := src, fr := fr, borrowed := s.borrowed + 1
        disp := .sendOut ⟨none, s.curIdx, f.readCnt, some ⟨s.borrowed, f.blk⟩⟩ }
  | readData {f : FrameT} {fr : FrameReader} {src : Bytes} (hdisp : s.disp = .read)
      (hread : s.fr.read s.src = ((.ok f, fr), src)) (hunc : f.uncompressed = false) :
      Step c s .read { s with
        src := src, fr := fr, borrowed := s.borrowed + 1
        disp := .sendIn ⟨s.curIdx, f.readCnt, ⟨s.borrowed, f.blk⟩⟩ }
  | finAcquire (hfin : s.fin = true) (hdisp : s.disp = .acquire) :
      Step c s .dispFin { s with disp := .closeIn none }
  | finOut {b : OutBlk} (hfin : s.fin = true) (hdisp : s.disp = .sendOut b) :
      Step c s .dispFin { s with
        returned := s.returned ++ b.blk.toList.map Blk.id, disp := .closeIn none }
  | finIn {b : InBlk} (hfin : s.fin = true) (hdisp : s.disp = .sendIn b) :
      Step c s .dispFin { s with returned := s.returned ++ [b.blk.id], disp := .closeIn none }
  | finErr {b : OutBlk} (hfin : s.fin = true) (hdisp : s.disp = .sendErr b) :
      Step c s .dispFin { s with disp := .done }
  | closeIn {err : Option Err} (hdisp : s.disp = .closeIn err) :
      Step c s .closeIn { s with inClosed := true, disp := .closeSem err }
  | closeSem {err : Option Err} (hdisp : s.disp = .closeSem err) :
      Step c s .closeSem { s with
        semClosed := true
        disp := err.elim .done (fun e => .sendErr ⟨some e, s.curIdx, 0, none⟩) }
  | sendIn {i : ℕ} {b : InBlk} (hdisp : s.disp = .sendIn b) (hw : s.workers[i]? = some .recv) :
      Step c s (.sendIn i) { s with
        disp := .acquire, curIdx := s.curIdx + 1, workers := s.workers.set i (.work b) }
  | sendOutNext {b : OutBlk} (hdisp : s.disp = .sendOut b) (hcons : s.cons = .recv)
      (hidx : b.idx = s.nextIdx) :
      Step c s .sendOut { s with
        disp := .acquire, curIdx := s.curIdx + 1, cons := .release b }
  | sendOutPark {b : OutBlk} (hdisp : s.disp = .sendOut b) (hcons : s.cons = .recv)
      (hidx : b.idx ≠ s.nextIdx) :
      Step c s .sendOut { s with
        disp := .acquire, curIdx := s.curIdx + 1, pending := s.pending ++ [b] }
  | sendErrNext {b : OutBlk} (hdisp : s.disp = .sendErr b) (hcons : s.cons = .recv)
      (hidx : b.idx = s.nextIdx) :
      Step c s .sendOut { s with disp := .done, cons := .release b }
  | sendErrPark {b : OutBlk} (hdisp : s.disp = .sendErr b) (hcons : s.cons = .recv)
      (hidx : b.idx ≠ s.nextIdx) :
      Step c s .sendOut { s with disp := .done, pending := s.pending ++ [b] }
  | workOk {i : ℕ} {b : InBlk} {data : Bytes} {dc : Decompressor}
      (hw : s.workers[i]? = some (.work b))
      (hdec : blkDecompress c.engine s.dc c.bsz b.blk.data = (.ok data, dc)) :
      Step c s (.work i) { s with
        dc := dc, borrowed := s.borrowed + 1, decodes := s.decodes ++ [(b.idx, s.dc.dict)]
        workers := s.workers.set i (.send ⟨none, b.idx, b.srcSz, some ⟨s.borrowed, data⟩⟩)
        returned := s.returned ++ [b.blk.id] }
  | workErr {i : ℕ} {b : InBlk} {e : Err} {dc : Decompressor}
      (hw : s.workers[i]? = some (.work b))
      (hdec : blkDecompress c.engine s.dc c.bsz b.blk.data = (.error e, dc)) :
      Step c s (.work i) { s with
        dc := dc, borrowed := s.borrowed + 1, decodes := s.decodes ++ [(b.idx, s.dc.dict)]
        workers := s.workers.set i (.send ⟨some e, b.idx, b.srcSz, none⟩)
        returned := s.returned ++ [s.borrowed, b.blk.id] }
  | workerNext {i : ℕ} {b : OutBlk} (hw : s.workers[i]? = some (.send b)) (hcons : s.cons = .recv)
      (hidx : b.idx = s.nextIdx) :
      Step c s (.workerOut i) { s with workers := s.workers.set i .recv, cons := .release b }
  | workerPark {i : ℕ} {b : OutBlk} (hw : s.workers[i]? = some (.send b)) (hcons : s.cons = .recv)
      (hidx : b.idx ≠ s.nextIdx) :
      Step c s (.workerOut i) { s with
        workers := s.workers.set i .recv, pending := s.pending ++ [b] }
  | workerFin {i : ℕ} {b : OutBlk} (hw : s.workers[i]? = some (.send b)) (hfin : s.fin = true) :
      Step c s (.workerFin i) { s with
        returned := s.returned ++ b.blk.toList.map Blk.id, workers := s.workers.set i .done }
  | workerExit {i : ℕ} (hw : s.workers[i]? = some .recv) (hin : s.inClosed = true) :
      Step c s (.workerExit i) { s with workers := s.workers.set i .done }
  | hash {h : Hasher} {b : Blk} {q : List Blk} (hh : s.hasher = some h) (hq : h.q = b :: q) :
      Step c s .hash { s with
        returned := s.returned ++ [b.id]
        hasher := some { h with q := q, hash := h.hash.write b.data } }
  | hashExit {h : Hasher} (hh : s.hasher = some h) (hq : h.q = []) (hcl : h.closed = true)
      (hex : h.exited = false) :
      Step c s .hashExit { s with hasher := some { h with exited := true } }
  | callFirst (hcons : s.cons = .idle) (hheld : s.held = none) :
      Step c s .call { s with cons := .check }
  | callReturn {b : Blk} (hcons : s.cons = .idle) (hheld : s.held = some b)
      (hh : s.hasher = none) :
      Step c s .call { s with returned := s.returned ++ [b.id], held := none, cons := .check }
  | callQueue {b : Blk} {h : Hasher} (hcons : s.cons = .idle) (hheld : s.held = some b)
      (hh : s.hasher = some h) :
      Step c s .call { s with held := none, cons := .queue b }
  | queue {b : Blk} {h : Hasher} (hcons : s.cons = .queue b) (hh : s.hasher = some h)
      (hlen : h.q.length < c.hashCap) (hcl : h.closed = false) :
      Step c s .queue { s with hasher := some { h with q := h.q ++ [b] }, cons := .check }
  | checkFound {b : OutBlk} (hcons : s.cons = .check) (hmem : b ∈ s.pending)
      (hidx : b.idx = s.nextIdx) :
      Step c s .check { s with
        cons := .release b, pending := s.pending.filter (fun b => b.idx ≠ s.nextIdx) }
  | checkNone (hcons : s.cons = .check) (hnone : ∀ b ∈ s.pending, b.idx ≠ s.nextIdx) :
      Step c s .check { s with cons := .recv }
  | releaseEnd {b : OutBlk} (hcons : s.cons = .release b) (hsem : 0 < s.sem ∨ s.semClosed = true)
      (herr : b.err = some (.const .endMark)) (hh : s.hasher ≠ none) :
      Step c s .release { s with
        sem := s.sem - 1, nextIdx := s.nextIdx + 1, cons := .hashDone b }
  | release {b : OutBlk} (hcons : s.cons = .release b) (hsem : 0 < s.sem ∨ s.semClosed = true)
      (herr : b.err = some (.const .endMark) → s.hasher = none) :
      Step c s .release { s with
        sem := s.sem - 1, nextIdx := s.nextIdx + 1
        results := s.results ++ [⟨b.blk.map Blk.data, b.srcSz, b.err⟩]
        held := b.blk, cons := if b.err = none then .idle else .ended }
  | hashDone {b : OutBlk} {h : Hasher} (hcons : s.cons = .hashDone b) (hh : s.hasher = some h) :
      Step c s .hashDone { s with hasher := some { h with closed := true }, cons := .hashWait b }
  | hashWait {b : OutBlk} {h : Hasher} (hcons : s.cons = .hashWait b) (hh : s.hasher = some h)
      (hex : h.exited = true) :
      Step c s .hashWait { s with
        results := s.results ++ [⟨b.blk.map Blk.data, b.srcSz,
          b.err.map (checkSum (some h.hash) s.fr.srcSum)⟩]
        held := b.blk
        cons := if b.err.map (checkSum (some h.hash) s.fr.srcSum) = none then .idle else .ended }
  | close (hcons : s.cons = .idle ∨ s.cons = .ended) :
      Step c s .close { s with fin := true, cons := .wgWait }
  | wgWait (hcons : s.cons = .wgWait) (hw : ∀ w ∈ s.workers, w = .done) :
      Step c s .wgWait { s with cons := .drainIn }
  | drainIn {b : InBlk} (hcons : s.cons = .drainIn) (hdisp : s.disp = .sendIn b) :
      Step c s .drainIn { s with
        returned := s.returned ++ [b.blk.id], disp := .acquire, curIdx := s.curIdx + 1 }
  | drainInDone (hcons : s.cons = .drainIn) (hin : s.inClosed = true) :
      Step c s .drainInDone { s with cons := .drainOut }
  | drainOutBlk {b : OutBlk} (hcons : s.cons = .drainOut) (hdisp : s.disp = .sendOut b) :
      Step c s .drainOut { s with
        returned := s.returned ++ b.blk.toList.map Blk.id, disp := .acquire
        curIdx := s.curIdx + 1 }
  | drainOutErr {b : OutBlk} (hcons : s.cons = .drainOut) (hdisp : s.disp = .sendErr b) :
      Step c s .drainOut { s with
        returned := s.returned ++ b.blk.toList.map Blk.id, disp := .done }
  | drainOutDone (hcons : s.cons = .drainOut) :
      Step c s .drainOutDone { s with
        returned := s.returned ++ (s.pending.flatMap (fun b => b.blk.toList)).map Blk.id
        pending := []
        cons := if s.hasher.isSome then .hashDoneC else .closed }
  | closeHashed {h : Hasher} (hcons : s.cons = .hashDoneC) (hh : s.hasher = some h)
      (hcl : h.closed = true) :
      Step c s .closeHash { s with cons := .closed }
  | closeHash {h : Hasher} (hcons : s.cons = .hashDoneC) (hh : s.hasher = some h)
      (hcl : h.closed = false) :
      Step c s .closeHash { s with hasher := some { h with closed := true }, cons := .hashWaitC }
  | closeWait {h : Hasher} (hcons : s.cons = .hashWaitC) (hh : s.hasher = some h)
      (hex : h.exited = true) :
      Step c s .closeWait { s with cons := .closed }

variable {c : ReaderCfg} {s s' : AsyncReader}

/-! ## Every enabled action is one of them -/

theorem readStep_spec (hdisp : s.disp = .read) : Step c s .read s.readStep := by
  rcases hread : s.fr.read s.src with ⟨⟨e | f, fr⟩, src⟩
  · simp only [readStep, hread]
    exact .readError hdisp hread
  · simp only [readStep, hread]
    by_cases hunc : f.uncompressed = true
    · rw [if_pos hunc]
      exact .readStored hdisp hread hunc
    · rw [if_neg hunc]
      exact .readData hdisp hread (Bool.not_eq_true _ ▸ hunc)

theorem dispFinStep_spec (hfin : s.fin = true) (h : s.dispFinStep = some s') :
    Step c s .dispFin s' := by
  rcases hdisp : s.disp with _ | _ | b | b | _ | _ | b | _ <;>
    simp only [dispFinStep, hdisp, Option.some.injEq, reduceCtorEq] at h
  · exact h ▸ .finAcquire hfin hdisp
  · exact h ▸ .finOut hfin hdisp
  · exact h ▸ .finIn hfin hdisp
  · exact h ▸ .finErr hfin hdisp

theorem workStep_spec {i : ℕ} {b : InBlk} (hw : s.workers[i]? = some (.work b)) :
    Step c s (.work i) (s.workStep c i b) := by
  rcases hdec : blkDecompress c.engine s.dc c.bsz b.blk.data with ⟨e | data, dc⟩
  · simp only [workStep, hdec]
    exact .workErr hw hdec
  · simp only [workStep, hdec]
    exact .workOk hw hdec

theorem sendOut_spec {b : OutBlk} (hoff : s.offered = some b) (hcons : s.cons = .recv) :
    Step c s .sendOut (s.dispSent.receive b) := by
  rcases hdisp : s.disp with _ | _ | b' | _ | _ | _ | b' | _ <;>
    simp only [offered, hdisp, Option.some.injEq, reduceCtorEq] at hoff <;> subst hoff <;>
    simp only [dispSent, hdisp, receive]
  · by_cases hidx : b'.idx = s.nextIdx
    · rw [if_pos hidx]
      exact .sendOutNext hdisp hcons hidx
    · rw [if_neg hidx]
      exact .sendOutPark hdisp hcons hidx
  · by_cases hidx : b'.idx = s.nextIdx
    · rw [if_pos hidx]
      exact .sendErrNext hdisp hcons hidx
    · rw [if_neg hidx]
      exact .sendErrPark hdisp hcons hidx

theorem workerOut_spec {i : ℕ} {b : OutBlk} (hw : s.workers[i]? = some (.send b))
    (hcons : s.cons = .recv) :
    Step c s (.workerOut i)
      (({ s with workers := s.workers.set i .recv } : AsyncReader).receive b) := by
  by_cases hidx : b.idx = s.nextIdx
  · rw [receive, if_pos hidx]
    exact .workerNext hw hcons hidx
  · rw [receive, if_neg hidx]
    exact .workerPark hw hcons hidx

theorem drainOut_spec {b : OutBlk} (hcons : s.cons = .drainOut) (hoff : s.offered = some b) :
    Step c s .drainOut (s.dispSent.giveBack b.blk.toList) := by
  rcases hdisp : s.disp with _ | _ | b' | _ | _ | _ | b' | _ <;>
    simp only [offered, hdisp, Option.some.injEq, reduceCtorEq] at hoff <;> subst hoff <;>
    simp only [dispSent, hdisp, giveBack]
  · exact .drainOutBlk hcons hdisp
  · exact .drainOutErr hcons hdisp

/-- **Inversion.** What an enabled action does. -/
theorem step_spec {a : Act} (h : step c s a = some s') : Step c s a s' := by
  cases a with
  | acquire =>
      simp only [step] at h
      split_ifs at h with hc
      exact Option.some.inj h ▸ .acquire hc.1 hc.2
  | read =>
      simp only [step] at h
      split_ifs at h with hc
      exact Option.some.inj h ▸ readStep_spec hc
  | dispFin =>
      simp only [step] at h
      split_ifs at h with hc
      exact dispFinStep_spec hc h
  | closeIn =>
      simp only [step] at h
      split at h
      · rename_i hdisp
        exact Option.some.inj h ▸ .closeIn hdisp
      · cases h
  | closeSem =>
      simp only [step] at h
      split at h
      · rename_i hdisp
        exact Option.some.inj h ▸ .closeSem hdisp
      · cases h
  | sendIn i =>
      simp only [step] at h
      split at h
      · rename_i hdisp hw
        simp only [dispSent, hdisp] at h
        exact Option.some.inj h ▸ .sendIn hdisp hw
      · cases h
  | sendOut =>
      simp only [step] at h
      split at h
      · rename_i hoff
        split_ifs at h with hcons
        exact Option.some.inj h ▸ sendOut_spec hoff hcons
      · cases h
  | work i =>
      simp only [step] at h
      split at h
      · rename_i hw
        exact Option.some.inj h ▸ workStep_spec hw
      · cases h
  | workerOut i =>
      simp only [step] at h
      split at h
      · rename_i hw
        split_ifs at h with hcons
        exact Option.some.inj h ▸ workerOut_spec hw hcons
      · cases h
  | workerFin i =>
      simp only [step] at h
      split at h
      · rename_i hw
        split_ifs at h with hfin
        exact Option.some.inj h ▸ .workerFin hw hfin
      · cases h
  | workerExit i =>
      simp only [step] at h
      split at h
      · rename_i hw
        split_ifs at h with hin
        exact Option.some.inj h ▸ .workerExit hw hin
      · cases h
  | hash =>
      simp only [step] at h
      split at h
      · rename_i hh
        exact Option.some.inj h ▸ .hash hh rfl
      · cases h
  | hashExit =>
      simp only [step] at h
      split at h
      · rename_i hh
        exact Option.some.inj h ▸ .hashExit hh rfl rfl rfl
      · cases h
  | call =>
      simp only [step] at h
      split_ifs at h with hcons
      split at h
      · rename_i hheld
        exact Option.some.inj h ▸ .callFirst hcons hheld
      · rename_i hheld hh
        exact Option.some.inj h ▸ .callReturn hcons hheld hh
      · rename_i hheld hh
        exact Option.some.inj h ▸ .callQueue hcons hheld hh
  | queue =>
      simp only [step] at h
      split at h
      · rename_i hcons hh
        split_ifs at h with hc
        exact Option.some.inj h ▸ .queue hcons hh hc.1 hc.2
      · cases h
  | check =>
      simp only [step] at h
      split_ifs at h with hcons
      split at h
      · rename_i b hb
        -- the pending map is searched for the index that is due
        have hidx := List.find?_some hb
        exact Option.some.inj h ▸ .checkFound hcons (List.mem_of_find?_eq_some hb)
          (of_decide_eq_true hidx)
      · rename_i hnone
        refine Option.some.inj h ▸ .checkNone hcons (fun b hb hidx => ?_)
        exact List.find?_eq_none.mp hnone b hb (decide_eq_true hidx)
  | release =>
      simp only [step] at h
      split at h
      · rename_i b hcons
        split_ifs at h with hsem hend
        · -- the end mark, with a hasher: the trailer is to be checked before
          refine Option.some.inj h ▸ .releaseEnd hcons hsem hend.1 ?_
          exact Option.isSome_iff_ne_none.mp hend.2
        · refine Option.some.inj h ▸ .release hcons hsem (fun herr => ?_)
          by_contra hh
          exact hend ⟨herr, Option.isSome_iff_ne_none.mpr hh⟩
      · cases h
  | hashDone =>
      simp only [step] at h
      split at h
      · rename_i hcons hh
        exact Option.some.inj h ▸ .hashDone hcons hh
      · cases h
  | hashWait =>
      simp only [step] at h
      split at h
      · rename_i hcons hh
        split_ifs at h with hex
        exact Option.some.inj h ▸ .hashWait hcons hh hex
      · cases h
  | close =>
      simp only [step] at h
      split_ifs at h with hcons
      exact Option.some.inj h ▸ .close hcons
  | wgWait =>
      simp only [step] at h
      split_ifs at h with hc
      exact Option.some.inj h ▸ .wgWait hc.1 hc.2
  | drainIn =>
      simp only [step] at h
      split at h
      · rename_i hcons hdisp
        simp only [dispSent, hdisp, giveBack] at h
        exact Option.some.inj h ▸ .drainIn hcons hdisp
      · cases h
  | drainInDone =>
      simp only [step] at h
      split_ifs at h with hc
      exact Option.some.inj h ▸ .drainInDone hc.1 hc.2
  | drainOut =>
      simp only [step] at h
      split at h
      · rename_i hcons hoff
        exact Option.some.inj h ▸ drainOut_spec hcons hoff
      · cases h
  | drainOutDone =>
      simp only [step] at h
      by_cases hcons : s.cons = .drainOut
      · rw [if_pos hcons, giveBack] at h
        exact Option.some.inj h ▸ .drainOutDone hcons
      · rw [if_neg hcons] at h
        cases h
  | closeHash =>
      simp only [step] at h
      split at h
      · rename_i hcons hh
        split_ifs at h with hcl
        · -- `hashDone` has closed the channel already
          exact Option.some.inj h ▸ .closeHashed hcons hh hcl
        · exact Option.some.inj h ▸ .closeHash hcons hh (Bool.not_eq_true _ ▸ hcl)
      · cases h
  | closeWait =>
      simp only [step] at h
      split at h
      · rename_i hcons hh
        split_ifs at h with hex
        exact Option.some.inj h ▸ .closeWait hcons hh hex
      · cases h

end AsyncReader

end Plz4
