/-
`ReadFrom` of the synchronous writer on a source that fails.

`io.ReadFull` turns an `io.EOF` after part of a block into `io.ErrUnexpectedEOF`, so the
loop of `_readFrom` takes both for the end of the source. A source that fails with
`io.ErrUnexpectedEOF` itself is not told from one that ends.
-/
import Plz4.SyncCalls

set_option autoImplicit false

namespace Plz4

open Cut

variable {Z : Clz4}

namespace SyncWriter

variable {w : SyncWriter Z} {o : OptsT} {segs : List Bytes} {seg : Bytes}

/-! ## The loop on a source that fails -/

/-- The loop takes all a source delivers, and ends with its error. The full passes are as
for a source that ends; the error comes with the pass that falls short. -/
theorem readFromLoop_fails (k : ℕ) {ps : List Bytes} {cur : Bytes} (h : w.Open o segs seg ps cur)
    (hindep : o.blockLinked = false) (r : Rd) (hne : ¬ (r.err = .eof ∨ r.err = .unexpectedEOF))
    (n : ℕ) (hk : r.data.length < k) :
    ∃ w', readFromLoop .ok k w r n = ((n + r.data.length, some r.err), w') := by
  induction k generalizing w seg ps cur r n with
  | zero => omega
  | succ k ih =>
      have hlt := h.cutting.length_lt
      have hlen := h.holds.length
      have hoff : w.srcOff.toNat = cur.length := by rw [h.holds.off, Int.toNat_natCast]
      obtain ⟨r', hread, hdata, herr⟩ := Rd.readFull_spec r (o.bsz - cur.length)
      by_cases hfull : o.bsz - cur.length ≤ r.data.length
      · have htaken : (r.data.take (o.bsz - cur.length)).length = o.bsz - cur.length := by
          rw [List.length_take]
          omega
        have hnone : r.fullErr (o.bsz - cur.length) = none := by rw [Rd.fullErr, if_pos hfull]
        obtain ⟨w', hrun, hopen⟩ := h.writeFull hindep
          (r.data.take (o.bsz - cur.length))
          (by rw [List.length_append, htaken]; omega) w.srcOff
        have hdrop : r'.data.length = r.data.length - (o.bsz - cur.length) := by
          rw [hdata, List.length_drop]
        obtain ⟨w'', hloop⟩ := ih hopen r' (by rwa [herr]) (n + (o.bsz - cur.length)) (by omega)
        refine ⟨w'', ?_⟩
        simp only [readFromLoop, hoff, hlen, hread, hnone, htaken]
        simp only [blk, Option.getD_some] at hrun ⊢
        rw [hrun]
        simp only
        rw [hloop, hdrop, Nat.add_assoc, Nat.add_sub_cancel' hfull, herr]
      · have hall : r.data.take (o.bsz - cur.length) = r.data := List.take_of_length_le (by omega)
        have hfe : r.fullErr (o.bsz - cur.length) = some r.err := by
          rw [Rd.fullErr, if_neg hfull, if_neg (fun hand => hne (.inl hand.2))]
        simp only [readFromLoop, hoff, hlen, hread, hfe, hall, if_neg hne]
        exact ⟨_, rfl⟩

/-- `ReadFrom` returns the error of such a source. -/
theorem readFrom_fails (h : w.Live o segs seg) (hstate : w.state = none)
    (hindep : o.blockLinked = false) (r : Rd) (hne : ¬ (r.err = .eof ∨ r.err = .unexpectedEOF)) :
    (w.readFrom .ok r).1 = ⟨r.data.length, some r.err⟩ ∧ (w.readFrom .ok r).2.state = some r.err := by
  obtain ⟨w₁, ps, cur, hhead, hopen⟩ := h.header
  obtain ⟨w₂, hloop⟩ := readFromLoop_fails (r.data.length + 2) hopen hindep r hne 0 (by omega)
  simp only [readFrom, hstate, _readFrom, hhead, hloop, Nat.zero_add]
  exact ⟨trivial, trivial⟩

/-! ## States without an error -/

/-- An error stays. -/
theorem state_call (wr : WrPlan) (h : w.state ≠ none) (c : WCall) : (w.call wr c).2.state ≠ none := by
  obtain ⟨e, he⟩ := Option.ne_none_iff_exists'.mp h
  cases c with
  | write src =>
      simp only [call, write, he]
      rintro ⟨⟩
  | readFrom r =>
      simp only [call, readFrom, he]
      rintro ⟨⟩
  | flush =>
      simp only [call, flush, he]
      rintro ⟨⟩
  | close =>
      simp only [call, close]
      split
      · exact h
      · split
        · rename_i hstate
          rw [hstate]
          rintro ⟨⟩
        · rintro ⟨⟩
        · rintro ⟨⟩

theorem state_runCalls (wr : WrPlan) (h : w.state ≠ none) (cs : List WCall) :
    (w.runCalls wr cs).2.state ≠ none := by
  induction cs generalizing w with
  | nil => exact h
  | cons c cs ih => exact ih (state_call wr h c)

/-- `Close` leaves an error, if only that the writer is closed. -/
theorem state_close (wr : WrPlan) (hblk : w.srcBlk ≠ none) : (w.close wr).2.state ≠ none := by
  simp only [close]
  split
  · rename_i hnone
    exact absurd hnone hblk
  · split
    · rename_i hstate
      rw [hstate]
      rintro ⟨⟩
    · rintro ⟨⟩
    · rintro ⟨⟩

theorem Live.srcBlk (h : w.Live o segs seg) : w.srcBlk ≠ none := by
  rcases h with ⟨ps, cur, hopen⟩ | ⟨hfresh, -, -⟩
  · rw [hopen.holds.some]
    rintro ⟨⟩
  · rw [hfresh.some]
    rintro ⟨⟩

/-- **A state without an error** has all the calls have taken. -/
theorem runCalls_live (hindep : o.blockLinked = false) (h : w.Live o segs seg)
    (hstate : w.state = none) (cs : List WCall) (hend : (w.runCalls .ok cs).2.state = none) :
    ∃ segs' seg', (w.runCalls .ok cs).2.Live o segs' seg'
      ∧ segs'.flatten ++ seg' = segs.flatten ++ seg ++ taken cs (w.runCalls .ok cs).1 := by
  induction cs generalizing w segs seg with
  | nil => exact ⟨segs, seg, h, (List.append_nil _).symm⟩
  | cons c cs ih =>
      -- the call, which cannot have failed
      obtain ⟨segs₁, seg₁, hlive, hstate₁, htaken⟩ : ∃ segs₁ seg₁, (w.call .ok c).2.Live o segs₁ seg₁
          ∧ (w.call .ok c).2.state = none
          ∧ segs₁.flatten ++ seg₁ = segs.flatten ++ seg ++ takenOf c (w.call .ok c).1 := by
        have hgo : (w.call .ok c).2.state = none := by
          by_contra hne
          exact state_runCalls .ok hne cs hend
        cases c with
        | write src =>
            obtain ⟨w₁, hrun, hs, hlive⟩ := write_spec h hstate hindep src
            simp only [call, hrun, takenOf, List.take_length]
            exact ⟨segs, seg ++ src, hlive, hs, (List.append_assoc _ _ _).symm⟩
        | readFrom r =>
            by_cases heof : r.err = .eof ∨ r.err = .unexpectedEOF
            · obtain ⟨w₁, hrun, hs, hlive⟩ := readFrom_spec h hstate hindep r heof
              simp only [call, hrun, takenOf, List.take_length]
              exact ⟨segs, seg ++ r.data, hlive, hs, (List.append_assoc _ _ _).symm⟩
            · have hfail := (readFrom_fails h hstate hindep r heof).2
              rw [call, hfail] at hgo
              cases hgo
        | flush =>
            obtain ⟨w₁, hrun, hs, hlive⟩ := flush_spec h hstate hindep
            simp only [call, hrun, takenOf, List.append_nil]
            refine ⟨segs ++ [seg], [], hlive, hs, ?_⟩
            rw [List.flatten_append, List.flatten_singleton, List.append_nil]
        | close => exact absurd hgo (state_close .ok h.srcBlk)
      obtain ⟨segs₂, seg₂, hlive₂, htaken₂⟩ := ih hlive hstate₁ hend
      refine ⟨segs₂, seg₂, hlive₂, ?_⟩
      rw [htaken₂, htaken, List.append_assoc]
      rfl

/-- The bytes `c` are in the writer: written in blocks, or held in the block buffer. -/
def Has (w : SyncWriter Z) (o : OptsT) (c : Bytes) : Prop :=
  (∃ ps cur, w.Wrote o ps ∧ w.Holds o cur ∧ c = ps.flatten ++ cur) ∨ w.Fresh o ∧ c = []

theorem Live.has (h : w.Live o segs seg) : w.Has o (segs.flatten ++ seg) := by
  rcases h with ⟨ps, cur, hopen⟩ | ⟨hfresh, -, hcut⟩
  · exact .inl ⟨ps, cur, hopen.wrote, hopen.holds, (hopen.cutting.flatten o.bsz_pos).symm⟩
  · exact .inr ⟨hfresh, (hcut.flatten o.bsz_pos).symm⟩

end SyncWriter

/-- **`ReadFrom` on a source that fails.** In every state without an error: it returns nil
exactly for `io.EOF` and otherwise the error of the source, and with nil every byte of the
source is counted and in the writer, exactly if the source does not fail with
`io.ErrUnexpectedEOF`. -/
theorem readFrom_source_iff (Z : Clz4) (o : OptsT) (hsync : usesSyncWriter o = true)
    (buf : PoolBlk o.bsz) (cs : List WCall)
    (hstate : ((newSyncWriter Z o buf).runCalls .ok cs).2.state = none) (r : Rd) :
    let w := ((newSyncWriter Z o buf).runCalls .ok cs).2
    let c := taken cs ((newSyncWriter Z o buf).runCalls .ok cs).1
    (((w.readFrom .ok r).1.err = none ↔ r.err = .eof)
        ∧ (r.err ≠ .eof → (w.readFrom .ok r).1.err = some r.err)
        ∧ w.Has o c
        ∧ ((w.readFrom .ok r).1.err = none →
          (w.readFrom .ok r).1.n = r.data.length ∧ (w.readFrom .ok r).2.Has o (c ++ r.data)))
      ↔ r.err ≠ .unexpectedEOF := by
  intro w c
  have hindep : o.blockLinked = false := by
    rw [usesSyncWriter, Bool.and_eq_true, Bool.not_eq_true'] at hsync
    exact hsync.2
  obtain ⟨segs, seg, hlive, hc⟩ :=
    SyncWriter.runCalls_live hindep (SyncWriter.live_new (Z := Z) o buf) rfl cs hstate
  rw [List.flatten_nil, List.nil_append, List.nil_append] at hc
  have hhas := hlive.has
  rw [hc] at hhas
  by_cases hend : r.err = .eof ∨ r.err = .unexpectedEOF
  · -- both ends are taken for the end of the source, so nil is returned for the second too
    obtain ⟨w', hrun, -, hlive'⟩ := SyncWriter.readFrom_spec hlive hstate hindep r hend
    have hhas' := hlive'.has
    rw [← List.append_assoc, hc] at hhas'
    simp only [w, hrun, true_iff, reduceCtorEq, imp_false, not_not]
    constructor
    · rintro ⟨heof, -, -⟩
      rw [heof]
      rintro ⟨⟩
    · intro hne
      have heof := hend.resolve_right hne
      exact ⟨heof, heof, hhas, fun _ => ⟨trivial, hhas'⟩⟩
  · have hfail := (SyncWriter.readFrom_fails hlive hstate hindep r hend).1
    rw [not_or] at hend
    simp only [w, hfail, reduceCtorEq, false_iff, false_implies, and_true]
    exact iff_of_true ⟨hend.1, fun _ => trivial, hhas⟩ hend.2

/-- A `Write` of one byte, and a source of one byte that fails with an error of its own. -/
theorem readFrom_source_one_byte :
    ∃ buf : PoolBlk OptsT.sync64KB.bsz,
      let w := ((newSyncWriter litEngine .sync64KB buf).runCalls .ok [.write [5]]).2
      w.state = none
        ∧ (w.readFrom .ok ⟨[7], [1], false, .other 0⟩).1.err = some (.other 0)
        ∧ w.Has .sync64KB [5] := by
  have hlive : (newSyncWriter litEngine .sync64KB ⟨_, List.length_replicate (a := (0 : UInt8))⟩).Live
      .sync64KB [] [] := SyncWriter.live_new _ _
  obtain ⟨w, hrun, hstate, -⟩ := SyncWriter.write_spec hlive rfl rfl [5]
  have hnone : ((newSyncWriter litEngine .sync64KB
      ⟨_, List.length_replicate (a := (0 : UInt8))⟩).runCalls .ok [.write [5]]).2.state = none := by
    simp only [SyncWriter.runCalls, SyncWriter.call, hrun, hstate]
  have htaken : taken [.write [5]] ((newSyncWriter litEngine .sync64KB
      ⟨_, List.length_replicate (a := (0 : UInt8))⟩).runCalls .ok [.write [5]]).1 = [5] := by
    simp only [SyncWriter.runCalls, SyncWriter.call, hrun]
    rfl
  have h := (readFrom_source_iff litEngine .sync64KB rfl _ [.write [5]] hnone
    ⟨[7], [1], false, .other 0⟩).mpr (by decide)
  rw [htaken] at h
  exact ⟨_, hnone, h.2.1 (by decide), h.2.2.1⟩

/-- A source that fails with `io.ErrUnexpectedEOF` after one byte: `ReadFrom` returns nil. -/
theorem readFrom_unexpectedEOF :
    ∃ buf : PoolBlk OptsT.sync64KB.bsz,
      (newSyncWriter litEngine .sync64KB buf).state = none
        ∧ ((newSyncWriter litEngine .sync64KB buf).readFrom .ok
          ⟨[7], [1], false, .unexpectedEOF⟩).1 = ⟨1, none⟩ := by
  refine ⟨⟨_, List.length_replicate (a := (0 : UInt8))⟩, rfl, ?_⟩
  obtain ⟨w, hrun, -, -⟩ := SyncWriter.readFrom_spec
    (SyncWriter.live_new (Z := litEngine) .sync64KB ⟨_, List.length_replicate (a := (0 : UInt8))⟩)
    rfl rfl ⟨[7], [1], false, .unexpectedEOF⟩ (.inr rfl)
  rw [hrun]
  rfl

end Plz4
