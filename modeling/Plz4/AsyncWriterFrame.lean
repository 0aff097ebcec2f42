/-
The frame the asynchronous writer puts out when nothing fails, on every schedule.

A caller that feeds the writer cuts the content as it comes in: the blocks handed to the
tasks are the pieces made so far, the block buffer is what does not yet fill one. That is
an invariant of the caller alone (`Cuts`); the write loop has put all of them out, in
order, when the caller sees `synChan` closed.
-/
import Plz4.AsyncWriterCalm
import Plz4.AsyncWriterTasks

set_option autoImplicit false

namespace Plz4

open Cut LittleEndian Xxh32

/-! ## Where the caller is in its script -/

/-- Where the caller is, or where `_flushBlk` brings it. -/
def Caller.base : Caller → Caller
  | .queue k | .acquire k | .sendIn k => AsyncWriter.resumeAt k
  | x => x

/-- The caller still feeds `fs`, and then closes. -/
def Caller.Feeds (script : List WCall) (fs : List Feed) : Caller → Prop
  | .idle => script = Feed.script fs
  | .write src _ => ∃ fs', fs = .write src :: fs' ∧ script.tail = Feed.script fs'
  | .readFrom r _ =>
      ∃ (h : r.err = .eof) (fs' : List Feed), fs = .readFrom ⟨r, h⟩ :: fs'
        ∧ script.tail = Feed.script fs'
  | .report _ | .synSend | .synWait | .flushEnd => script.tail = Feed.script fs
  | _ => False

/-- The caller is in the last call, or past it. -/
def Caller.Closes (script : List WCall) : Caller → Prop
  | .idle => script = []
  | .closeSem | .closeIn | .wgWait | .synJoin => script.tail = []
  | _ => False

/-- A script is a call that feeds and a script, or `Close`. -/
theorem Feed.script_eq_cons {fs : List Feed} {call : WCall} {rest : List WCall}
    (h : Feed.script fs = call :: rest) :
    (∃ f fs', fs = f :: fs' ∧ call = f.call ∧ rest = Feed.script fs')
      ∨ fs = [] ∧ call = .close ∧ rest = [] := by
  cases fs with
  | nil =>
      simp only [Feed.script, List.map_nil, List.nil_append, List.cons.injEq] at h
      exact .inr ⟨rfl, h.1.symm, h.2.symm⟩
  | cons f fs =>
      simp only [Feed.script, List.map_cons, List.cons_append, List.cons.injEq] at h
      exact .inl ⟨f, fs, rfl, h.1.symm, h.2.symm⟩

theorem Feed.script_ne_nil (fs : List Feed) : Feed.script fs ≠ [] := by
  rw [Feed.script]
  exact List.append_ne_nil_of_right_ne_nil _ (List.cons_ne_nil _ _)

/-- A caller that feeds reads to `io.EOF`. -/
theorem Feed.readFrom_script (fs : List Feed) :
    ∀ r, WCall.readFrom r ∈ Feed.script fs → r.err ≠ .unexpectedEOF := by
  intro r hr
  rcases List.mem_append.mp hr with hr | hr
  · obtain ⟨f, -, hf⟩ := List.mem_map.mp hr
    cases f with
    | readFrom r' =>
        cases hf
        rw [r'.eof]
        rintro ⟨⟩
    | _ => cases hf
  · cases List.mem_singleton.mp hr

/-! ## Cutting the content -/

/-- The blocks made: those handed over, and the one the caller is handing over. -/
def givenAt (x : Caller) (blks : List Bytes) (cur : Bytes) : List Bytes :=
  if x.flushing then blks ++ [cur] else blks

/-- What is held of the next block. -/
def keptAt (x : Caller) (cur : Bytes) : Bytes := if x.flushing then [] else cur

/-- The caller cuts the content of `fs₀`, and feeds what it has not cut. -/
inductive Cuts (bsz : ℕ) (fs₀ : List Feed) (x : Caller) (script : List WCall) (blks : List Bytes)
    (cur : Bytes) : Prop
  | feeding {segs : List Bytes} {seg : Bytes} {fs : List Feed}
      (cutting : Cutting bsz segs seg (givenAt x blks cur) (keptAt x cur))
      (rest : segments fs₀ = segs ++ segmentsFrom seg fs) (feeds : x.base.Feeds script fs)
  | closing (cutting : Cutting bsz (segments fs₀) [] (givenAt x blks cur) (keptAt x cur))
      (ends : x.base.Closes script)

theorem givenAt_of_not {x : Caller} (h : x.flushing = false) (blks : List Bytes) (cur : Bytes) :
    givenAt x blks cur = blks := by
  rw [givenAt, h]
  rfl

theorem keptAt_of_not {x : Caller} (h : x.flushing = false) (cur : Bytes) : keptAt x cur = cur := by
  rw [keptAt, h]
  rfl

theorem givenAt_of_flushing {x : Caller} (h : x.flushing = true) (blks : List Bytes) (cur : Bytes) :
    givenAt x blks cur = blks ++ [cur] := by
  rw [givenAt, h]
  rfl

theorem keptAt_of_flushing {x : Caller} (h : x.flushing = true) (cur : Bytes) :
    keptAt x cur = [] := by
  rw [keptAt, h]
  rfl

section Cuts

variable {bsz : ℕ} {fs₀ : List Feed} {x : Caller} {script : List WCall} {segs blks : List Bytes}
  {seg cur : Bytes}

/-- In a call there are calls to make. -/
theorem Cuts.script_ne_nil (h : Cuts bsz fs₀ x script blks cur) (hout : x.outside = true) (hne : x ≠ .idle) :
    script ≠ [] := by
  rintro rfl
  cases h with
  | feeding _ _ hfeeds =>
      cases x with
      | idle => exact hne rfl
      | write src n =>
          obtain ⟨fs, -, htail⟩ := hfeeds
          exact Feed.script_ne_nil fs htail.symm
      | readFrom r n =>
          obtain ⟨-, fs, -, htail⟩ := hfeeds
          exact Feed.script_ne_nil fs htail.symm
      | report n => exact Feed.script_ne_nil _ hfeeds.symm
      | _ => cases hout
  | closing _ hends =>
      cases x with
      | idle => exact hne rfl
      | write src n => exact hends
      | readFrom r n => exact hends
      | report n => exact hends
      | _ => cases hout

/-- The caller at the head of a call. -/
theorem Cuts.idle {rest : List WCall} {call : WCall} (h : Cuts bsz fs₀ .idle script blks cur) (hscript : script = call :: rest) :
    ∃ segs seg, Cutting bsz segs seg blks cur
      ∧ ((∃ f fs, segments fs₀ = segs ++ segmentsFrom seg (f :: fs) ∧ call = f.call
          ∧ rest = Feed.script fs)
        ∨ segments fs₀ = segs ++ [seg] ∧ call = .close ∧ rest = []) := by
  cases h with
  | @feeding segs seg fs hcut hrest hfeeds =>
      refine ⟨segs, seg, hcut, ?_⟩
      rcases Feed.script_eq_cons (hfeeds.symm.trans hscript) with
        ⟨f, fs, rfl, hcall, htail⟩ | ⟨rfl, hcall, htail⟩
      · exact .inl ⟨f, fs, hrest, hcall, htail⟩
      · exact .inr ⟨hrest, hcall, htail⟩
  | closing _ hends =>
      have hnil : script = [] := hends
      rw [hnil] at hscript
      cases hscript

/-- The caller in the loop of `Write`. -/
theorem Cuts.write {src : Bytes} {n : ℕ} (h : Cuts bsz fs₀ (.write src n) script blks cur) :
    ∃ segs seg fs, Cutting bsz segs seg blks cur ∧ script.tail = Feed.script fs
      ∧ segments fs₀ = segs ++ segmentsFrom (seg ++ src) fs := by
  cases h with
  | @feeding segs seg fs hcut hrest hfeeds =>
      obtain ⟨fs', rfl, htail⟩ := hfeeds
      exact ⟨segs, seg, fs', hcut, htail, hrest⟩
  | closing _ hends => exact hends.elim

/-- The caller in the loop of `ReadFrom`. -/
theorem Cuts.readFrom {r : Rd} {n : ℕ} (h : Cuts bsz fs₀ (.readFrom r n) script blks cur) :
    ∃ segs seg fs, Cutting bsz segs seg blks cur ∧ r.err = .eof ∧ script.tail = Feed.script fs
      ∧ segments fs₀ = segs ++ segmentsFrom (seg ++ r.data) fs := by
  cases h with
  | @feeding segs seg fs hcut hrest hfeeds =>
      obtain ⟨heof, fs', rfl, htail⟩ := hfeeds
      exact ⟨segs, seg, fs', hcut, heof, htail, hrest⟩
  | closing _ hends => exact hends.elim

/-- A block is made, and the caller hands it over. -/
theorem Cuts.given {fs : List Feed} (hcut : Cutting bsz segs seg (blks ++ [cur]) [])
    (hx : x.flushing = true) (hrest : segments fs₀ = segs ++ segmentsFrom seg fs)
    (hfeeds : x.base.Feeds script fs) : Cuts bsz fs₀ x script blks cur := by
  refine .feeding ?_ hrest hfeeds
  rwa [givenAt_of_flushing hx, keptAt_of_flushing hx]

/-- The caller has part of a block. -/
theorem Cuts.kept {fs : List Feed} (hcut : Cutting bsz segs seg blks cur)
    (hx : x.flushing = false) (hrest : segments fs₀ = segs ++ segmentsFrom seg fs)
    (hfeeds : x.base.Feeds script fs) : Cuts bsz fs₀ x script blks cur := by
  refine .feeding ?_ hrest hfeeds
  rwa [givenAt_of_not hx, keptAt_of_not hx]

end Cuts

namespace AsyncWriter

variable {Z : Clz4} {c : WriterCfg} {s s' : AsyncWriter Z} {a : Act} {fs₀ : List Feed}

theorem base_flushAt (s : AsyncWriter Z) (k : Then) : (s.flushAt k).base = resumeAt k := by
  unfold flushAt
  split_ifs <;> rfl

theorem base_resumeAt (k : Then) : (resumeAt k).base = resumeAt k := by
  cases k <;> rfl

/-- The frame of the blocks handed over is out, and the progress handler has seen it. -/
def Complete (c : WriterCfg) (s : AsyncWriter Z) : Prop :=
  ∃ es, Encodes Z c.opts s.blks es
    ∧ passed s.calls
      = headerBytes c.opts ++ es.flatten ++ trailerBytes (contentHash c.opts s.blks)
    ∧ s.progress = marks 0 (headerBytes c.opts).length s.blks es

/-- The writer of a caller that feeds it, while nothing has failed. -/
structure Feeding (c : WriterCfg) (fs₀ : List Feed) (s : AsyncWriter Z) : Prop where
  err : s.srcBlk ≠ none → s.err = none
  results : ∀ r ∈ s.results, r.err = none
  cuts : Cuts c.opts.bsz fs₀ s.caller s.script s.blks s.cur
  shut : s.srcBlk = none → s.script = []
  last : s.caller = .idle → s.script = [] → s.srcBlk = none
  complete : s.srcBlk = none → Complete c s

/-- No error is set in a call. -/
theorem Feeding.err_none (h : Feeding c fs₀ s) (hph : Phases s)
    (hin : s.caller = .idle → s.script ≠ []) : s.err = none := by
  apply h.err
  intro hblk
  obtain ⟨-, -, hout⟩ := hph.after hblk
  have hscript := h.shut hblk
  by_cases hidle : s.caller = .idle
  · exact hin hidle hscript
  · exact h.cuts.script_ne_nil hout hidle hscript

/-- A call at its end returns. -/
theorem Reports.cuts {n : ℕ} (h : Reports s n) (hf : Feeding c fs₀ s) (hph : Phases s) :
    s.err = none ∧ s.script.tail ≠ [] ∧ Cuts c.opts.bsz fs₀ .idle s.script.tail s.blks s.cur := by
  have hcuts := hf.cuts
  have herr := hf.err_none hph
  cases h with
  | write hcaller hsrc =>
      rw [hcaller] at hcuts herr
      have hnone := herr (by rintro ⟨⟩)
      obtain ⟨segs, seg, fs, hcut, htail, hrest⟩ := hcuts.write
      refine ⟨hnone, htail ▸ Feed.script_ne_nil fs, .kept hcut rfl ?_ htail⟩
      rcases hsrc with rfl | hne
      · rwa [List.append_nil] at hrest
      · exact absurd hnone hne
  | readFrom hcaller hne =>
      rw [hcaller] at herr
      exact absurd (herr (by rintro ⟨⟩)) hne
  | report hcaller | flushEnd hcaller =>
      rw [hcaller] at hcuts herr
      refine ⟨herr (by rintro ⟨⟩), ?_⟩
      cases hcuts with
      | @feeding segs seg fs hcut hrest hfeeds =>
          have htail : s.script.tail = Feed.script fs := hfeeds
          exact ⟨htail ▸ Feed.script_ne_nil fs, .kept hcut rfl hrest htail⟩
      | closing _ hends => exact hends.elim
  | flush hcaller hscript hne =>
      exact absurd (herr (fun _ => by rw [hscript]; exact List.cons_ne_nil _ _)) hne
  | close hcaller hscript hblk =>
      rw [hf.shut hblk] at hscript
      cases hscript

/-- Before `Flush` the content is cut at what is held. -/
theorem Feeding.idle_flush (hf : Feeding c fs₀ s) (hcaller : s.caller = .idle) {rest : List WCall}
    (hscript : s.script = .flush :: rest) :
    ∃ segs seg fs, Cutting c.opts.bsz segs seg s.blks s.cur
      ∧ segments fs₀ = (segs ++ [seg]) ++ segmentsFrom [] fs ∧ rest = Feed.script fs := by
  have hcuts := hf.cuts
  rw [hcaller] at hcuts
  obtain ⟨segs, seg, hcut, ⟨f, fs, hrest, hcall, htail⟩ | ⟨-, hcall, -⟩⟩ := hcuts.idle hscript
  · cases f <;> cases hcall
    rw [segmentsFrom, ← List.singleton_append, ← List.append_assoc] at hrest
    exact ⟨segs, seg, fs, hcut, hrest, htail⟩
  · cases hcall

/-- Before `Close` too, and nothing is to come. -/
theorem Feeding.idle_close (hf : Feeding c fs₀ s) (hcaller : s.caller = .idle) {rest : List WCall}
    (hscript : s.script = .close :: rest) :
    ∃ segs seg, Cutting c.opts.bsz segs seg s.blks s.cur ∧ segments fs₀ = segs ++ [seg]
      ∧ rest = [] := by
  have hcuts := hf.cuts
  rw [hcaller] at hcuts
  obtain ⟨segs, seg, hcut, ⟨f, fs, -, hcall, -⟩ | ⟨hrest, -, htail⟩⟩ := hcuts.idle hscript
  · cases f <;> cases hcall
  · exact ⟨segs, seg, hcut, hrest, htail⟩

/-- **The caller cuts the content.** -/
theorem Local.cuts {x : Caller} {script : List WCall} {b : Option Blk} {rep : Bool}
    {rs : List CallRes} {es : List Err} (h : Local c s x script b rep rs es) (hf : Feeding c fs₀ s)
    (hph : Phases s) :
    Cuts c.opts.bsz fs₀ x script s.blks ((b.map Blk.data).getD []) := by
  have hpos := c.opts.bsz_pos
  have hcuts := hf.cuts
  cases h with
  | report h => exact (h.cuts hf hph).2.2
  -- a call begins: what it feeds is in the script, and nothing of it is cut yet
  | @write src rest hcaller hscript =>
      rw [hcaller] at hcuts
      obtain ⟨segs, seg, hcut, ⟨f, fs, hrest, hcall, htail⟩ | ⟨-, hcall, -⟩⟩ := hcuts.idle hscript
      · cases f <;> cases hcall
        exact .feeding hcut hrest ⟨fs, rfl, by rw [hscript]; exact htail⟩
      · cases hcall
  | @readFrom r rest hcaller hscript =>
      rw [hcaller] at hcuts
      obtain ⟨segs, seg, hcut, ⟨f, fs, hrest, hcall, htail⟩ | ⟨-, hcall, -⟩⟩ := hcuts.idle hscript
      · cases f with
        | readFrom r =>
            cases hcall
            exact .feeding hcut hrest ⟨r.eof, fs, rfl, by rw [hscript]; exact htail⟩
        | _ => cases hcall
      · cases hcall
  -- a flush ends a segment: what is held of a block becomes a short one
  | @flushBlk rest hcaller hscript herr hcur =>
      obtain ⟨segs, seg, fs, hcut, hrest, htail⟩ := hf.idle_flush hcaller hscript
      exact .given (hcut.flush_of_ne_nil hpos hcur) (flushing_flushAt s _) hrest
        (by rw [base_flushAt, hscript]; exact htail)
  | @flushNone rest hcaller hscript herr hcur hidx =>
      obtain ⟨segs, seg, fs, hcut, hrest, htail⟩ := hf.idle_flush hcaller hscript
      refine .feeding ?_ hrest (by rw [hscript]; exact htail)
      change Cutting _ _ _ _ s.cur
      rw [hcur] at hcut ⊢
      exact hcut.flush_nil hpos
  | @flushSyn rest hcaller hscript herr hcur hidx =>
      obtain ⟨segs, seg, fs, hcut, hrest, htail⟩ := hf.idle_flush hcaller hscript
      refine .feeding ?_ hrest (by rw [hscript]; exact htail)
      change Cutting _ _ _ _ s.cur
      rw [hcur] at hcut ⊢
      exact hcut.flush_nil hpos
  | @closeBlk rest hcaller hscript hblk hcur =>
      obtain ⟨segs, seg, hcut, hrest, htail⟩ := hf.idle_close hcaller hscript
      refine .closing ?_ (by rw [base_flushAt, hscript]; exact htail)
      rw [givenAt_of_flushing (flushing_flushAt s _), keptAt_of_flushing (flushing_flushAt s _),
        hrest]
      exact hcut.flush_of_ne_nil hpos hcur
  | @close rest hcaller hscript hblk hcur =>
      obtain ⟨segs, seg, hcut, hrest, htail⟩ := hf.idle_close hcaller hscript
      refine .closing ?_ (by rw [hscript]; exact htail)
      change Cutting _ _ _ _ s.cur
      rw [hcur] at hcut ⊢
      rw [hrest]
      exact hcut.flush_nil hpos
  -- in the loops what is taken from the source is added to what is held
  | @writeFull src n k hcaller hsrc herr hk hfull =>
      rw [hcaller] at hcuts
      obtain ⟨segs, seg, fs, hcut, htail, hrest⟩ := hcuts.write
      have hblk := hph.srcBlk_of_err herr
      have hlen : (s.cur ++ src.take k).length = c.opts.bsz := by
        rw [List.length_append, List.length_take]
        omega
      have hfill := hcut.fill hpos _ hlen
      rw [← cur_fill hblk] at hfill
      refine Cuts.given hfill (flushing_flushAt s _) ?_ (by rw [base_flushAt]; exact ⟨fs, rfl, htail⟩)
      rw [segmentsFrom, List.append_assoc, List.take_append_drop]
      exact hrest
  | @writeMore src n k hcaller hsrc herr hk hfull =>
      rw [hcaller] at hcuts
      obtain ⟨segs, seg, fs, hcut, htail, hrest⟩ := hcuts.write
      have hblk := hph.srcBlk_of_err herr
      have hroom := hcut.length_lt
      have hlen : (s.cur ++ src.take k).length < c.opts.bsz := by
        rw [List.length_append, List.length_take]
        omega
      have hadd := hcut.add _ hlen
      rw [← cur_fill hblk] at hadd
      refine .kept hadd rfl ?_ ⟨fs, rfl, htail⟩
      rw [segmentsFrom, List.append_assoc, List.take_append_drop]
      exact hrest
  | @readFull r r' n d hcaller herr hread =>
      rw [hcaller] at hcuts
      obtain ⟨segs, seg, fs, hcut, heof, htail, hrest⟩ := hcuts.readFrom
      have hblk := hph.srcBlk_of_err herr
      obtain ⟨rfl, hle, hdata, herr'⟩ := Rd.readFull_none hread
      have hroom := hcut.length_lt
      have hlen : (s.cur ++ r.data.take (c.opts.bsz - s.cur.length)).length = c.opts.bsz := by
        rw [List.length_append, List.length_take]
        omega
      have hfill := hcut.fill hpos _ hlen
      rw [← cur_fill hblk] at hfill
      refine Cuts.given hfill (flushing_flushAt s _) ?_
        (by rw [base_flushAt]; exact ⟨herr'.trans heof, fs, rfl, htail⟩)
      rw [segmentsFrom, hdata, List.append_assoc, List.take_append_drop]
      exact hrest
  | @readShort r r' n d hcaller herr hread =>
      rw [hcaller] at hcuts
      obtain ⟨segs, seg, fs, hcut, heof, htail, hrest⟩ := hcuts.readFrom
      have hblk := hph.srcBlk_of_err herr
      obtain ⟨rfl, hlt, hdata, herr', -⟩ := Rd.readFull_some hread
      have hlen : (s.cur ++ r.data).length < c.opts.bsz := by
        rw [List.length_append]
        omega
      have hadd := hcut.add _ hlen
      rw [← cur_fill hblk] at hadd
      refine .kept hadd rfl ?_ ⟨herr'.trans heof, fs, rfl, htail⟩
      rw [segmentsFrom, hdata, List.append_nil]
      exact hrest
  | @readEof r r' n d hcaller herr hread =>
      rw [hcaller] at hcuts
      obtain ⟨segs, seg, fs, hcut, heof, htail, hrest⟩ := hcuts.readFrom
      have hblk := hph.srcBlk_of_err herr
      obtain ⟨rfl, hlt, -, -, -⟩ := Rd.readFull_some hread
      have hlen : (s.cur ++ r.data).length < c.opts.bsz := by
        rw [List.length_append]
        omega
      have hadd := hcut.add _ hlen
      rw [← cur_fill hblk] at hadd
      exact .kept hadd rfl hrest htail
  | @readFail r r' n d e hcaller herr he hread =>
      rw [hcaller] at hcuts
      obtain ⟨segs, seg, fs, hcut, heof, htail, hrest⟩ := hcuts.readFrom
      obtain ⟨-, -, -, -, ⟨-, -, hshort⟩ | ⟨-, hsame⟩⟩ := Rd.readFull_some hread
      · exact absurd hshort he.1
      · exact absurd (hsame.trans heof) he.2

/-! ## Every step -/

/-- The caller moves inside a call. -/
theorem Feeding.move (hf : Feeding c fs₀ s) {y : Caller} (hfl : y.flushing = s.caller.flushing)
    (hfeeds : ∀ fs, s.caller.base.Feeds s.script fs → y.base.Feeds s.script fs)
    (hends : s.caller.base.Closes s.script → y.base.Closes s.script) :
    Cuts c.opts.bsz fs₀ y s.script s.blks s.cur := by
  have hgiven : givenAt y s.blks s.cur = givenAt s.caller s.blks s.cur := by
    rw [givenAt, hfl, givenAt]
  have hkept : keptAt y s.cur = keptAt s.caller s.cur := by
    rw [keptAt, hfl, keptAt]
  cases hf.cuts with
  | feeding hcut hrest hf =>
      rw [← hgiven, ← hkept] at hcut
      exact .feeding hcut hrest (hfeeds _ hf)
  | closing hcut he =>
      rw [← hgiven, ← hkept] at hcut
      exact .closing hcut (hends he)

/-- A reader that ends in `io.EOF` does not fail. -/
theorem Feeding.not_readErr (hf : Feeding c fs₀ s) (e : Err) (n : ℕ) : s.caller ≠ .readErr e n := by
  intro hcaller
  have hcuts := hf.cuts
  rw [hcaller] at hcuts
  cases hcuts with
  | feeding _ _ hfeeds => exact hfeeds
  | closing _ hends => exact hends

/-- `Close` is the last call; with the block buffer nothing held is lost. -/
theorem Feeding.closed (hf : Feeding c fs₀ s) (hcaller : s.caller = .synJoin) :
    s.script.tail = [] ∧ Cuts c.opts.bsz fs₀ .idle [] s.blks [] := by
  have hcuts := hf.cuts
  rw [hcaller] at hcuts
  cases hcuts with
  | feeding _ _ hfeeds => exact hfeeds.elim
  | closing hcut hends =>
      refine ⟨hends, .closing ?_ rfl⟩
      have hcut' : Cutting c.opts.bsz (segments fs₀) [] s.blks s.cur := hcut
      have hnil : s.cur = [] := by
        obtain ⟨w, hw, -⟩ := hcut'
        exact (List.append_eq_nil_iff.mp hw.symm).2
      rwa [hnil] at hcut'

theorem cuts_step (hf : Feeding c fs₀ s) (hph : Phases s) (hstep : Step c s a s') :
    Cuts c.opts.bsz fs₀ s'.caller s'.script s'.blks s'.cur := by
  cases hstep with
  | loc h => exact h.cuts hf hph
  | readErr hcaller => exact absurd hcaller (hf.not_readErr _ _)
  | queue hcaller | acquire hcaller | closeSem hcaller | closeIn hcaller | wgWait hcaller
  | synSend hcaller | synReply hcaller | recvClosed hcaller =>
      apply hf.move
      · rw [hcaller]
        rfl
      · rw [hcaller]
        exact fun _ h => h
      · rw [hcaller]
        exact fun h => h
  | join hcaller =>
      obtain ⟨htail, hcuts⟩ := hf.closed hcaller
      change Cuts _ _ _ s.script.tail _ _
      rw [htail]
      exact hcuts
  | synReplyJoin hcaller hloop =>
      have hwait := hph.replies hloop
      rw [hcaller] at hwait
      cases hwait
  | @sendIn i k b t hcaller hblk =>
      have hcuts := hf.cuts
      -- the block changes hands: what was given and not yet handed over now is both
      have hcur : s.cur = b.data := by
        rw [cur, hblk]
        rfl
      rw [hcaller, hcur] at hcuts
      cases hcuts with
      | feeding hcut hrest hfeeds =>
          refine .kept hcut (flushing_resumeAt k) hrest ?_
          change (resumeAt k).base.Feeds _ _
          rw [base_resumeAt]
          exact hfeeds
      | closing hcut hends =>
          refine .closing ?_ ?_
          · change Cutting _ _ _ (givenAt (resumeAt k) _ _) (keptAt (resumeAt k) _)
            rw [givenAt_of_not (flushing_resumeAt k), keptAt_of_not (flushing_resumeAt k)]
            exact hcut
          · change (resumeAt k).base.Closes _
            rw [base_resumeAt]
            exact hends
  | _ => exact hf.cuts

/-- A closed writer stays closed. -/
theorem srcBlk_step (hstep : Step c s a s') (hblk : s.srcBlk = none) : s'.srcBlk = none := by
  cases hstep with
  | loc h =>
      have hfill : ∀ d, s.fill d = none := by
        intro d
        rw [fill, hblk]
        rfl
      cases h <;> first | exact hblk | exact hfill _
  | sendIn _ hsome =>
      rw [hblk] at hsome
      cases hsome
  | join | synReplyJoin => rfl
  | _ => exact hblk

/-- Only the end of `Close` takes the block buffer away. -/
theorem srcBlk_none_step (hph : Phases s) (hstep : Step c s a s') (hblk : s.srcBlk ≠ none)
    (hblk' : s'.srcBlk = none) : s.caller = .synJoin ∧ s.loop = .done ∧ s' = s.closeEnd := by
  cases hstep with
  | loc h =>
      have hfill : ∀ d, s.fill d ≠ none := by
        intro d hnone
        exact hblk (Option.map_eq_none_iff.mp hnone)
      cases h <;> first | exact absurd hblk' hblk | exact absurd hblk' (hfill _)
  | sendIn => cases hblk'
  | join hcaller hsyn => exact ⟨hcaller, hph.syn.mp hsyn, rfl⟩
  | synReplyJoin hcaller hloop =>
      have hwait := hph.replies hloop
      rw [hcaller] at hwait
      cases hwait
  | _ => exact absurd hblk' hblk

/-- The calls still to make only get fewer. -/
theorem script_step (hstep : Step c s a s') : s'.script = s.script ∨ s'.script = s.script.tail := by
  cases hstep with
  | loc h => cases h <;> first | exact .inl rfl | exact .inr rfl
  | join | synReplyJoin => exact .inr rfl
  | _ => exact .inl rfl

/-- When the write loop is done without an error, everything is out and nothing has failed. -/
theorem Sound.wrote_all (h : Sound c s) (hloop : s.loop = .done) (herr : s.err = none) :
    ∃ es, Wrote c s es [trailerBytes (contentHash c.opts s.blks)] ∧ es.length = s.blks.length
      ∧ ∀ w ∈ s.calls, w.err = none := by
  obtain ⟨es, tail, hw⟩ := h.written.wrote (by rw [hloop]; rintro ⟨⟩)
  obtain rfl : tail = [trailerBytes (contentHash c.opts s.blks)] := by
    rcases hw.tail_ended (by rw [hloop]; rfl) with htail | ⟨-, hne⟩
    · exact htail
    · exact absurd herr hne
  -- every block has left its token, and only written ones do
  have hlive : Live s := ⟨herr, fun e k => by rw [hloop]; rintro ⟨⟩⟩
  have hnext : s.nextIdx = s.srcIdx := by
    apply Nat.le_antisymm h.order.le
    by_contra hlt
    have hrel := h.released_of_done hloop (Nat.lt_of_not_le hlt)
    exact absurd (h.order.above hlive _ hrel) (Nat.lt_irrefl _)
  refine ⟨es, hw, ?_, not_failed_iff.mp (h.failing.not_failed hlive ?_)⟩
  · rw [hw.length, wrote_of_not (by rw [hloop]; rintro _ _ ⟨⟩), hnext, h.values.length]
  · rw [hloop]
    rintro _ _ ⟨⟩

theorem Wrote.passed {es tail : List Bytes} (h : Wrote c s es tail) :
    passed s.calls = headerBytes c.opts ++ es.flatten ++ tail.flatten := by
  rw [Plz4.passed, List.flatMap_def, h.calls, List.flatten_cons, List.flatten_append,
    List.append_assoc]

theorem Sound.complete (h : Sound c s) (hwr : c.wr = .ok) (hloop : s.loop = .done)
    (herr : s.err = none) : Complete c s := by
  obtain ⟨es, hw, hlen, -⟩ := h.wrote_all hloop herr
  refine ⟨es, hw.encodes h.values hlen, ?_, ?_⟩
  · rw [hw.passed, List.flatten_singleton]
  · rw [hw.reported hwr (.inr (List.cons_ne_nil _ _)), hlen, List.take_length]

/-- A closed writer is left alone. -/
theorem shut_step (hph : Phases s) (hstep : Step c s a s') (hblk : s.srcBlk = none) :
    s'.blks = s.blks ∧ s'.calls = s.calls ∧ s'.progress = s.progress := by
  have hdone := (hph.after hblk).1
  cases hstep with
  | sendIn _ hsome =>
      rw [hblk] at hsome
      cases hsome
  | header hloop | headerFail hloop | headerErr hloop | write hloop | finish hloop
  | trailer hloop | trailerFail hloop =>
      rw [hdone] at hloop
      cases hloop
  | _ => exact ⟨rfl, rfl, rfl⟩

theorem Complete.step (h : Complete c s) (hph : Phases s) (hstep : Step c s a s')
    (hblk : s.srcBlk = none) : Complete c s' := by
  obtain ⟨hblks, hcalls, hprogress⟩ := shut_step hph hstep hblk
  unfold Complete
  rw [hblks, hcalls, hprogress]
  exact h

/-- The last call is `Close`. -/
theorem last_step (hf : Feeding c fs₀ s) (hph : Phases s) (hstep : Step c s a s')
    (hidle : s'.caller = .idle) (hscript' : s'.script = []) : s'.srcBlk = none := by
  cases hstep with
  | loc h =>
      have hflush : ∀ k, s.flushAt k ≠ .idle := fun k => flushAt_ne_idle s k
      cases h with
      | report h => exact absurd hscript' (h.cuts hf hph).2.1
      | flushNone hcaller hscript =>
          have hcuts := hf.cuts
          rw [hcaller] at hcuts
          have htail : s.script.tail = [] := hscript'
          rw [hscript, List.tail_cons] at htail
          obtain ⟨-, -, -, ⟨f, fs, -, -, hrest⟩ | ⟨-, hcall, -⟩⟩ := hcuts.idle hscript
          · rw [htail] at hrest
            exact absurd hrest.symm (Feed.script_ne_nil fs)
          · cases hcall
      | flushBlk | closeBlk | writeFull | readFull => exact absurd hidle (hflush _)
      | _ => cases hidle
  | join | synReplyJoin => rfl
  | @sendIn i k =>
      have hres : resumeAt k = .idle := hidle
      cases k <;> cases hres
  | readErr | queue | acquire | closeSem | closeIn | wgWait | recvClosed | synSend | synReply =>
      cases hidle
  | _ => exact hf.last hidle hscript'

/-- No call has failed. -/
theorem results_step (hf : Feeding c fs₀ s) (hph : Phases s) (hstep : Step c s a s') :
    ∀ r ∈ s'.results, r.err = none := by
  have hadd : ∀ r : CallRes, r.err = none → ∀ r' ∈ s.results ++ [r], r'.err = none := by
    intro r hr r' hmem
    rcases List.mem_append.mp hmem with hold | hnew
    · exact hf.results r' hold
    · rw [List.mem_singleton.mp hnew]
      exact hr
  cases hstep with
  | loc h =>
      cases h with
      | report h => exact hadd _ (h.cuts hf hph).1
      | flushNone => exact hadd _ rfl
      | _ => exact hf.results
  | join hcaller | synReplyJoin hcaller =>
      apply hadd
      have herr := hf.err_none hph (by rw [hcaller]; rintro ⟨⟩)
      rw [herr]
      exact ite_self _
  | _ => exact hf.results

/-- **Feeding goes on**, as long as the destination takes everything and the blocks are
made. -/
theorem Feeding.step (hf : Feeding c fs₀ s) (h : Sound c s) (hwr : c.wr = .ok)
    (hcalm : s.loop.failing = false) (hstep : Step c s a s') : Feeding c fs₀ s' where
  err := by
    intro hblk'
    have hblk : s.srcBlk ≠ none := fun hblk => hblk' (srcBlk_step hstep hblk)
    rcases err_calm hcalm hstep with herr | ⟨e, n, hcaller⟩ | ⟨-, hnone⟩
    · exact herr.trans (hf.err hblk)
    · exact absurd hcaller (hf.not_readErr e n)
    · exact absurd hnone hblk'
  results := results_step hf h.phases hstep
  cuts := cuts_step hf h.phases hstep
  shut := by
    intro hblk'
    by_cases hblk : s.srcBlk = none
    · have hscript := hf.shut hblk
      rcases script_step hstep with heq | heq
      · rw [heq, hscript]
      · rw [heq, hscript, List.tail_nil]
    · obtain ⟨hcaller, -, rfl⟩ := srcBlk_none_step h.phases hstep hblk hblk'
      exact (hf.closed hcaller).1
  last := last_step hf h.phases hstep
  complete := by
    intro hblk'
    by_cases hblk : s.srcBlk = none
    · exact (hf.complete hblk).step h.phases hstep hblk
    · obtain ⟨-, hloop, rfl⟩ := srcBlk_none_step h.phases hstep hblk hblk'
      exact h.complete hwr hloop (hf.err hblk)

theorem feeding_newAsyncWriter (Z : Clz4) (c : WriterCfg) (fs : List Feed) :
    Feeding c fs (newAsyncWriter Z c.opts (Feed.script fs)) where
  err := fun _ => rfl
  results := by rintro r ⟨⟩
  cuts := .kept (.init c.opts.bsz_pos) rfl rfl rfl
  shut := by rintro ⟨⟩
  last := fun _ hnil => absurd hnil (Feed.script_ne_nil fs)
  complete := by rintro ⟨⟩

/-- What holds in a run of a caller that feeds the writer. -/
theorem feeding_run (hwr : c.wr = .ok) (hpar : 0 < c.opts.nParallel) {fs : List Feed}
    {as : List Act} (hrun : Machine.run (step c) (newAsyncWriter Z c.opts (Feed.script fs)) as = some s)
    (hmade : AllMade s) : Feeding c fs s := by
  have hinv : Sound c s ∧ (AllMade s → s.loop.failing = false ∧ Feeding c fs s) := by
    refine Machine.invariant_run
      (I := fun s => Sound c s ∧ (AllMade s → s.loop.failing = false ∧ Feeding c fs s))
      (fun s a s' h hstep => ?_)
      ⟨sound_newAsyncWriter Z c _ hpar, fun _ => ⟨rfl, feeding_newAsyncWriter Z c fs⟩⟩ hrun
    have hst := step_spec hstep
    refine ⟨h.1.step hst, fun hm => ?_⟩
    have hm' := allMade_of_step hst hm
    obtain ⟨hcalm, hf⟩ := h.2 hm'
    exact ⟨failing_step hwr h.1.values hm' hst hcalm, hf.step h.1 hwr hcalm hst⟩
  exact (hinv.2 hmade).2

/-! ## The frame -/

/-- Nothing is left to do for a caller that feeds: the writer is closed. -/
theorem Feeding.finished (hf : Feeding c fs₀ s) (hfin : s.Finished) :
    s.blks = pieces c.opts.bsz fs₀ ∧ Complete c s := by
  have hcuts := hf.cuts
  rw [hfin.1, hfin.2] at hcuts
  refine ⟨?_, hf.complete (hf.last hfin.1 hfin.2)⟩
  cases hcuts with
  | @feeding segs seg fs hcut hrest hfeeds => exact absurd hfeeds.symm (Feed.script_ne_nil fs)
  | closing hcut hends =>
      have hcut' : Cutting c.opts.bsz (segments fs₀) [] s.blks s.cur := hcut
      exact hcut'.pieces_eq

/-- What is out when the caller is through. -/
theorem finished_run (hwr : c.wr = .ok) (hpar : 0 < c.opts.nParallel) {fs : List Feed}
    {as : List Act} (hrun : Machine.run (step c) (newAsyncWriter Z c.opts (Feed.script fs)) as = some s)
    (hmade : AllMade s) (hfin : s.Finished) :
    ∃ es, Encodes Z c.opts (pieces c.opts.bsz fs) es
      ∧ passed s.calls = headerBytes c.opts ++ es.flatten
        ++ trailerBytes (contentHash c.opts (pieces c.opts.bsz fs))
      ∧ s.progress = marks 0 (headerBytes c.opts).length (pieces c.opts.bsz fs) es := by
  obtain ⟨hblks, es, henc, hpassed, hprogress⟩ := (feeding_run hwr hpar hrun hmade).finished hfin
  rw [hblks] at henc hpassed hprogress
  exact ⟨es, henc, hpassed, hprogress⟩

/-- A content size that is no negative `int` starts a task. -/
theorem initTasks_pos {o : OptsT} (hpar : 0 < o.nParallel)
    (hsz : ∀ sz, o.contentSz = some sz → sz.toNat < 2 ^ 63) : 0 < initTasks o := by
  apply (initTasks_pos_iff hpar).mpr
  intro sz hcontent
  exact .inl (hsz sz hcontent)

end AsyncWriter

/-- What a block becomes depends on what the compressor returns for it. -/
theorem compressToBlk_congr {Z : Clz4} {cmp cmp' : Compressor Z} {src : Bytes} {bsz : ℕ}
    {dict : Option Bytes} (h : (cmp.compress src bsz dict).1 = (cmp'.compress src bsz dict).1)
    (checksum : Bool) :
    (compressToBlk src cmp bsz checksum dict).1 = (compressToBlk src cmp' bsz checksum dict).1 := by
  rcases hc : cmp.compress src bsz dict with ⟨ret, c⟩
  rcases hc' : cmp'.compress src bsz dict with ⟨ret', c'⟩
  rw [hc, hc'] at h
  obtain rfl : ret = ret' := h
  simp only [compressToBlk, hc, hc']
  rcases ret with e | out
  · simp only
    split_ifs <;> rfl
  · simp only
    split_ifs <;> rfl

/-- Compressors that are functions of their input make the same blocks in any order. -/
theorem encodeFrom_functional {Z : Clz4} {f : CompressorFactory Z} (hf : f.Functional)
    {cmp : Compressor Z} (hcmp : f.Reach cmp) (bsz : ℕ) (checksum : Bool) (ps : List Bytes) :
    (encodeFrom cmp bsz checksum ps).1
      = ps.map (fun p => made (compressToBlk p f.newCompressor bsz checksum none).1) := by
  obtain ⟨g, hg⟩ := hf
  induction ps generalizing cmp with
  | nil => rfl
  | cons p ps ih =>
      have hnext : f.Reach (compressToBlk p cmp bsz checksum none).2 := by
        rw [compressToBlk_cmp]
        exact hcmp.compress p bsz none
      have hsame : (cmp.compress p bsz none).1 = (f.newCompressor.compress p bsz none).1 :=
        (hg cmp hcmp p bsz none).trans (hg _ .new p bsz none).symm
      simp only [encodeFrom, List.map_cons, ih hnext, compressToBlk_congr hsame]

/-- The `k`-th block of one compressor. -/
theorem getElem?_encodeFrom {Z : Clz4} (cmp : Compressor Z) (bsz : ℕ) (checksum : Bool) (ps : List Bytes)
    (k : ℕ) :
    (encodeFrom cmp bsz checksum ps).1[k]?
      = ps[k]?.map (fun p => made (compressToBlk p (encodeFrom cmp bsz checksum (ps.take k)).2 bsz
        checksum none).1) := by
  induction ps generalizing cmp k with
  | nil => rfl
  | cons p ps ih =>
      cases k with
      | zero => rfl
      | succ k => simp only [encodeFrom, List.getElem?_cons_succ, List.take_succ_cons, ih]

/-- The blocks one compressor makes in order. -/
theorem encodes_encoded (Z : Clz4) {o : OptsT} (hindep : o.blockLinked = false) (ps : List Bytes) :
    AsyncWriter.Encodes Z o ps (encoded Z o ps).1 := by
  refine ⟨length_encoded Z o ps, fun k p d hp hd => ?_⟩
  have hreach := reach_encodeFrom (f := o.newCompressorFactory Z) .new o.bsz o.blockChecksum
    (ps.take k)
  refine ⟨_, hreach, ?_⟩
  have hdict : dictFor o ps k = none := by
    rw [dictFor, hindep]
    rfl
  have hok := compressToBlk_isOk hreach (.inl hindep) p none
  rw [encoded, getElem?_encodeFrom, hp, Option.map_some, Option.some.injEq] at hd
  rw [hdict]
  rcases hret : (compressToBlk p (encodeFrom (o.newCompressorFactory Z).newCompressor o.bsz
    o.blockChecksum (ps.take k)).2 o.bsz o.blockChecksum none).1 with e | b
  · rw [hret] at hok
    cases hok
  · rw [hret] at hd
    exact congrArg Except.ok hd

/-- Then the tasks make the blocks that one compressor makes in order. -/
theorem AsyncWriter.Encodes.eq_encoded {Z : Clz4} {o : OptsT} {ps es : List Bytes}
    (h : AsyncWriter.Encodes Z o ps es) (hindep : o.blockLinked = false)
    (hf : (o.newCompressorFactory Z).Functional) : es = (encoded Z o ps).1 := by
  rw [encoded, encodeFrom_functional hf .new]
  apply List.ext_getElem?
  intro k
  rw [List.getElem?_map]
  rcases hp : ps[k]? with _ | p
  · rw [Option.map_none, List.getElem?_eq_none_iff, h.length]
    exact List.getElem?_eq_none_iff.mp hp
  · obtain ⟨hlt, -⟩ := List.getElem?_eq_some_iff.mp hp
    have hlt' : k < es.length := h.length.symm ▸ hlt
    have he : es[k]? = some es[k] := List.getElem?_eq_getElem hlt'
    obtain ⟨cmp, hcmp, hmade⟩ := h.made k p _ hp he
    obtain ⟨g, hg⟩ := hf
    have hdict : dictFor o ps k = none := by
      rw [dictFor, hindep]
      rfl
    have hsame : (cmp.compress p o.bsz none).1
        = ((o.newCompressorFactory Z).newCompressor.compress p o.bsz none).1 :=
      (hg cmp hcmp p _ _).trans (hg _ .new p _ _).symm
    rw [hdict, compressToBlk_congr hsame] at hmade
    rw [he, Option.map_some, hmade]
    rfl

/-- Independent blocks without a dictionary are compressed without any state. -/
theorem OptsT.functional (Z : Clz4) {o : OptsT} (hindep : o.blockLinked = false)
    (hdict : o.dictionary = none) : (o.newCompressorFactory Z).Functional := by
  have hfactory : o.newCompressorFactory Z = ⟨true, o.level, none, none⟩ := by
    simp only [OptsT.newCompressorFactory, Plz4.newCompressorFactory, hdict, hindep,
      Option.map_none, Bool.not_false]
  rw [hfactory]
  have hsame : ∀ c : Compressor Z, (⟨true, o.level, none, none⟩ : CompressorFactory Z).Reach c →
      c = (⟨true, o.level, none, none⟩ : CompressorFactory Z).newCompressor := by
    intro c hc
    induction hc with
    | new => rfl
    | compress src cap dict _ ih =>
        rw [ih]
        simp only [CompressorFactory.newCompressor, CompressorFactory.newIndie, if_true]
        split_ifs <;> rfl
  refine ⟨fun src cap dict => ((⟨true, o.level, none, none⟩ :
    CompressorFactory Z).newCompressor.compress src cap dict).1, fun c hc src cap dict => ?_⟩
  rw [hsame c hc]

/-- The options of a synchronous writer. -/
def OptsT.sync (o : OptsT) : OptsT := { o with nParallel := 0 }

/-- **The frame on every schedule.** A caller feeds the writer and closes it. No schedule
runs on for ever, none gets stuck before `Close` has returned, and then the destination
has the header, the blocks of the content in order, each once, and the trailer. Where the
compressor is a function of its input this is what the synchronous writer puts out for the
same calls, with the same pairs for the progress handler. -/
theorem asyncWriter_frame (Z : Clz4) (o : OptsT) (hpar : 0 < o.nParallel)
    (hsz : ∀ sz, o.contentSz = some sz → sz.toNat < 2 ^ 63) (fs : List Feed)
    {as : List AsyncWriter.Act} {s : AsyncWriter Z}
    (hrun : Machine.run (AsyncWriter.step ⟨o, .ok⟩) (newAsyncWriter Z o (Feed.script fs)) as
      = some s)
    (hok : ∀ e ∈ s.encodes, e.ret.isOk = true) :
    as.length ≤ (newAsyncWriter Z o (Feed.script fs)).fuel
      ∧ (¬ s.Finished → ∃ a, (AsyncWriter.step ⟨o, .ok⟩ s a).isSome = true)
      ∧ (∀ r ∈ s.results, r.err = none)
      ∧ (s.Finished → ∃ es, AsyncWriter.Encodes Z o (pieces o.bsz fs) es
        ∧ passed s.calls
          = headerBytes o ++ es.flatten ++ trailerBytes (contentHash o (pieces o.bsz fs))
        ∧ ((content fs).length < 2 ^ 64 → contentHash o (pieces o.bsz fs)
          = if o.contentChecksum then some (checksumZero (content fs)) else none)
        ∧ s.progress = marks 0 (headerBytes o).length (pieces o.bsz fs) es
        ∧ (o.blockLinked = false → (o.newCompressorFactory Z).Functional →
          ∀ buf, passed s.calls
              = passed ((newSyncWriter Z o.sync buf).runCalls .ok (Feed.script fs)).2.calls
            ∧ s.progress
              = ((newSyncWriter Z o.sync buf).runCalls .ok (Feed.script fs)).2.progress)) := by
  have h : AsyncWriter.Sound ⟨o, .ok⟩ s := AsyncWriter.sound_run hpar hrun
  have hf : AsyncWriter.Feeding ⟨o, .ok⟩ fs s := AsyncWriter.feeding_run rfl hpar hrun hok
  have htasks := AsyncWriter.tasks_run (AsyncWriter.initTasks_pos hpar hsz) hrun
  refine ⟨?_, fun hfin => h.moves hpar htasks (h.not_crashed hok) hfin, hf.results, fun hfin => ?_⟩
  · -- every step lowers the measure
    have hlower : ∀ (s : AsyncWriter Z) a s', True →
        (AsyncWriter.Room ⟨o, .ok⟩ s ∧ AsyncWriter.Ends s) → AsyncWriter.step ⟨o, .ok⟩ s a = some s' →
        (AsyncWriter.Room ⟨o, .ok⟩ s' ∧ AsyncWriter.Ends s') ∧ s'.fuel < s.fuel := by
      rintro s a s' - ⟨hr, he⟩ hstep
      have hst := AsyncWriter.step_spec hstep
      exact ⟨⟨hr.step hst, he.step hst⟩, AsyncWriter.fuel_step hr he.caller hst⟩
    have hlen := Machine.length_run_le AsyncWriter.fuel hlower (fun _ _ => trivial)
      ⟨AsyncWriter.room_newAsyncWriter Z ⟨o, .ok⟩ _, AsyncWriter.sources_newAsyncWriter Z o (Feed.readFrom_script fs)⟩
      hrun
    exact Nat.le_trans (Nat.le_add_right _ _) hlen
  · obtain ⟨es, henc, hpassed, hprogress⟩ := AsyncWriter.finished_run rfl hpar hrun hok hfin
    refine ⟨es, henc, hpassed, fun hlt => ?_, hprogress, fun hindep hfun buf => ?_⟩
    · have hflat := flatten_pieces o.bsz_pos fs
      rw [contentHash_eq (by rwa [hflat]), hflat]
    · obtain ⟨rs, w, hsync, -, hclosed⟩ :=
        SyncWriter.runCalls_spec (SyncWriter.live_new (Z := Z) o.sync buf) rfl hindep fs
      -- blocks compressed on their own depend on nothing but their bytes
      have hes := henc.eq_encoded hindep hfun
      rw [hsync, hpassed, hprogress, hes]
      exact ⟨hclosed.passed.symm, hclosed.progress.symm⟩

/-- Independent blocks of 64 KiB and two tasks, without the content checksum. -/
def OptsT.twoTasks : OptsT :=
  { OptsT.sync64KB with nParallel := 2, contentChecksum := false }

open AsyncWriter in
/-- Two full blocks, up to where both are made. The second was first, and waits in the pending
map. -/
def outOfOrder : List Act :=
  [.loop, .caller, .caller, .caller, .sendIn 0, .caller, .caller, .sendIn 1, .task 1, .task 1,
    .sendOut 1, .loop, .loop, .task 0, .task 0]

open AsyncWriter in
/-- The first is written, then the second, and the writer is closed. -/
def inOrder : List Act :=
  [.sendOut 0, .loop, .loop, .loop, .loop, .loop, .loop, .caller, .caller, .caller, .caller,
    .task 0, .task 1, .caller, .loop, .loop, .loop, .loop, .loop, .caller]

open AsyncWriter in
/-- The second block is parked, and the first is about to arrive. -/
structure Halfway {Z : Clz4} (d d' : Bytes) (s : AsyncWriter Z) : Prop where
  script : ∃ src, s.script = [.write src, .close]
  caller : ∃ n, s.caller = .write [] n
  srcBlk : ∃ k, s.srcBlk = some ⟨k, []⟩
  noErr : s.err = none ∧ s.report = false ∧ s.flushIdx = none
  isOpen : s.semClosed = false ∧ s.inClosed = false ∧ s.outClosed = false ∧ s.synClosed = false
  sem : s.sem = 2
  tasks : ∃ m i cmp cmp', s.tasks = [⟨.send ⟨none, 0, m, some ⟨i, d⟩⟩, cmp⟩, ⟨.recv, cmp'⟩]
  hasher : s.hasher = none
  loop : s.loop = .select ∧ s.nextIdx = 0
  pending : ∃ m j, s.pending = [⟨none, 1, m, some ⟨j, d'⟩⟩]
  arrived : s.arrived.map OutBlk.idx = [1]
  encodes : s.encodes.map Encode.ret = [.ok d', .ok d]

open AsyncWriter in
theorem run_outOfOrder (Z : Clz4) {p q d d' : Bytes} (hp : p.length = OptsT.twoTasks.bsz)
    (hq : q.length = OptsT.twoTasks.bsz) {cmp cmp' : Compressor Z}
    (hd : compressToBlk p (OptsT.twoTasks.newCompressorFactory Z).newCompressor
      OptsT.twoTasks.bsz false none = (.ok d, cmp))
    (hd' : compressToBlk q (OptsT.twoTasks.newCompressorFactory Z).newCompressor
      OptsT.twoTasks.bsz false none = (.ok d', cmp')) :
    ∃ s, Machine.run (step ⟨.twoTasks, .ok⟩)
      (newAsyncWriter Z .twoTasks (Feed.script [.write (p ++ q)])) outOfOrder = some s
      ∧ Halfway d d' s := by
  refine Machine.exists_run_append (show Machine.run (step ⟨.twoTasks, .ok⟩) _ [.loop, .caller]
    = some _ from rfl) ?_
  refine Machine.exists_run_append (run_hand (q := q) rfl rfl rfl rfl hp
    (show 0 < OptsT.twoTasks.calcPending by decide) rfl rfl rfl) ?_
  refine Machine.exists_run_append (run_hand (p := q) (q := []) (n := 0 + OptsT.twoTasks.bsz) ?_
    rfl rfl rfl hq (show 1 < OptsT.twoTasks.calcPending by decide) rfl rfl rfl) ?_
  · rw [List.append_nil]
    rfl
  refine Machine.exists_run_append (run_make (c := ⟨.twoTasks, .ok⟩) (i := 1)
    (b := ⟨1, ⟨1, q⟩, none⟩) hd' rfl rfl rfl rfl rfl) ?_
  -- block 1 is parked, block 0 follows
  refine Machine.exists_run_append (show Machine.run (step ⟨.twoTasks, .ok⟩) _
    [.sendOut 1, .loop, .loop] = some _ from rfl) ?_
  refine ⟨_, run_make (c := ⟨.twoTasks, .ok⟩) (i := 0) hd rfl rfl rfl rfl rfl, ?_⟩
  exact ⟨⟨_, rfl⟩, ⟨_, rfl⟩, ⟨_, rfl⟩, ⟨rfl, rfl, rfl⟩, ⟨rfl, rfl, rfl, rfl⟩, rfl,
    ⟨_, _, _, _, rfl⟩, rfl, ⟨rfl, rfl⟩, ⟨_, _, rfl⟩, rfl, rfl⟩

open AsyncWriter in
theorem run_inOrder {Z : Clz4} {s : AsyncWriter Z} {d d' : Bytes} (h : Halfway d d' s) :
    ∃ s', Machine.run (step ⟨.twoTasks, .ok⟩) s inOrder = some s'
      ∧ s'.Finished ∧ s'.arrived.map OutBlk.idx = [1, 0]
      ∧ s'.encodes.map Encode.ret = [.ok d', .ok d] := by
  obtain ⟨⟨src, hscript⟩, ⟨n, hcaller⟩, ⟨k, hblk⟩, ⟨herr, hreport, hflush⟩, ⟨hsem, hin, hout, hsyn⟩,
    htokens, ⟨m, i, cmp, cmp', htasks⟩, hhash, ⟨hloop, hnext⟩, ⟨m', j, hpend⟩, harrived,
    hencodes⟩ := h
  cases s
  dsimp only at hscript hcaller hblk herr hreport hflush hsem hin hout hsyn
  dsimp only at htokens htasks hhash hloop hnext hpend
  subst hscript hcaller hblk herr hreport hflush hsem hin hout hsyn htokens htasks hhash hloop hnext
    hpend
  refine ⟨_, rfl, ⟨rfl, rfl⟩, ?_, hencodes⟩
  show List.map OutBlk.idx (_ ++ [_]) = _
  rw [List.map_append, harrived]
  rfl

/-- Zeros, then ones. -/
theorem asyncWriter_frame_two_blocks :
    ∃ (p q : Bytes) (as : List AsyncWriter.Act) (s : AsyncWriter litEngine), p ≠ q
      ∧ Machine.run (AsyncWriter.step ⟨.twoTasks, .ok⟩)
          (newAsyncWriter litEngine .twoTasks (Feed.script [.write (p ++ q)])) as = some s
      ∧ s.Finished ∧ s.arrived.map OutBlk.idx = [1, 0]
      ∧ ∃ es, AsyncWriter.Encodes litEngine .twoTasks [p, q] es
        ∧ passed s.calls = headerBytes .twoTasks ++ es.flatten ++ trailerBytes none
        ∧ s.progress = marks 0 (headerBytes .twoTasks).length [p, q] es := by
  have hbsz := OptsT.twoTasks.bsz_bounds.1
  have hmade : ∀ x : UInt8, ∃ d cmp, compressToBlk (List.replicate OptsT.twoTasks.bsz x)
      (OptsT.twoTasks.newCompressorFactory litEngine).newCompressor OptsT.twoTasks.bsz false none
        = (.ok d, cmp) := by
    intro x
    have hok := compressToBlk_isOk (o := .twoTasks) (CompressorFactory.Reach.new (f :=
      OptsT.twoTasks.newCompressorFactory litEngine)) (.inl rfl)
      (List.replicate OptsT.twoTasks.bsz x) none
    rcases hret : compressToBlk (List.replicate OptsT.twoTasks.bsz x)
      (OptsT.twoTasks.newCompressorFactory litEngine).newCompressor OptsT.twoTasks.bsz false none
      with ⟨ret, cmp⟩
    rw [show OptsT.twoTasks.blockChecksum = false from rfl, hret] at hok
    cases ret with
    | error e => cases hok
    | ok d => exact ⟨d, cmp, rfl⟩
  obtain ⟨d, cmp, hd⟩ := hmade 0
  obtain ⟨d', cmp', hd'⟩ := hmade 1
  obtain ⟨s₁, hs₁, hhalf⟩ :=
    run_outOfOrder litEngine List.length_replicate List.length_replicate hd hd'
  obtain ⟨s, hs, hfin, harrived, hencodes⟩ := run_inOrder hhalf
  have hrun := Machine.run_append.mpr ⟨s₁, hs₁, hs⟩
  have hall : ∀ e ∈ s.encodes, e.ret.isOk = true := by
    intro e he
    have hmem := List.mem_map_of_mem (f := Encode.ret) he
    rw [hencodes, List.mem_cons, List.mem_singleton] at hmem
    rcases hmem with hret | hret <;> rw [hret] <;> rfl
  obtain ⟨es, henc, hpassed, -, hprogress, -⟩ := (asyncWriter_frame litEngine .twoTasks (by decide)
    (by rintro _ ⟨⟩) _ hrun hall).2.2.2 hfin
  have hpieces : pieces OptsT.twoTasks.bsz
      [.write (List.replicate OptsT.twoTasks.bsz 0 ++ List.replicate OptsT.twoTasks.bsz 1)]
      = [List.replicate OptsT.twoTasks.bsz 0, List.replicate OptsT.twoTasks.bsz 1] := by
    have hne : List.replicate OptsT.twoTasks.bsz (1 : UInt8) ≠ [] := by
      rw [ne_eq, List.replicate_eq_nil_iff]
      omega
    simp only [pieces, segments, segmentsFrom, List.flatMap_cons, List.flatMap_nil, List.append_nil,
      List.nil_append]
    rw [Cut.cut_append OptsT.twoTasks.bsz_pos _ List.length_replicate,
      Cut.cut_of_le OptsT.twoTasks.bsz_pos hne List.length_replicate.le]
  rw [hpieces] at henc hpassed hprogress
  refine ⟨_, _, _, s, ?_, hrun, hfin, harrived, es, henc, hpassed, hprogress⟩
  intro heq
  have hmem : (0 : UInt8) ∈ List.replicate OptsT.twoTasks.bsz (0 : UInt8) :=
    List.mem_replicate.mpr ⟨by omega, rfl⟩
  rw [heq, List.mem_replicate] at hmem
  exact absurd hmem.2 (by decide)

end Plz4
