/-
  The transfer loops on files.
-/
import Aegir.Lib.Fuel
import Aegir.Posix.Descriptors

namespace Aegir.Posix

open Aegir.Lib

section
variable {σ F : Type} [DecidableEq F] (v : FilePorts σ F)

/-! ## What a loop leaves -/

theorem Holdings.Kept.refl (s : σ) : v.toHoldings.Kept s s := ⟨fun h => h, fun h => h⟩

variable {v}

theorem Holdings.Kept.trans {s s' s'' : σ} (h : v.toHoldings.Kept s s') (h' : v.toHoldings.Kept s' s'') :
    v.toHoldings.Kept s s'' := ⟨fun hs => h'.handle (h.handle hs), fun hs => h'.path (h.path hs)⟩

variable (v)

structure Quiet (s s' : σ) : Prop where
  kept : v.toHoldings.Kept s s'
  content : v.content s' = v.content s

structure Wrote (f : F) (offset : ℕ) (bytes : Bytes) (s s' : σ) : Prop where
  kept : v.toHoldings.Kept s s'
  content : v.content s' = Function.update (v.content s) f (splice (v.content s f) offset bytes)

/-- The file an entry's handle is on and its path names. -/
structure IsOn (s : σ) (e : Entry) (f : F) : Prop where
  handle : e.handle ≠ 0 → v.onHandle e.volume e.handle s = some f
  path : v.atPath e.volume e.path s = some f

variable {v} {s s' s'' : σ} {e : Entry} {f : F} {offset : ℕ} {a b : Bytes}

theorem Quiet.refl (s : σ) : Quiet v s s := ⟨.refl v s, rfl⟩

theorem Quiet.trans (h : Quiet v s s') (h' : Quiet v s' s'') : Quiet v s s'' :=
  ⟨h.kept.trans h'.kept, h'.content.trans h.content⟩

theorem Wrote.refl (f : F) (offset : ℕ) (s : σ) : Wrote v f offset [] s s := by
  refine ⟨.refl v s, ?_⟩
  rw [splice_nil, Function.update_eq_self]

theorem Wrote.trans (h : Wrote v f offset a s s') (h' : Wrote v f (offset + a.length) b s' s'') :
    Wrote v f offset (a ++ b) s s'' := by
  refine ⟨h.kept.trans h'.kept, ?_⟩
  rw [h'.content, h.content, Function.update_idem, Function.update_self, splice_splice]

theorem Quiet.wrote (h : Quiet v s s') (h' : Wrote v f offset a s' s'') : Wrote v f offset a s s'' := by
  refine ⟨h.kept.trans h'.kept, ?_⟩
  rw [h'.content, h.content]

theorem Wrote.quiet (h : Wrote v f offset [] s s') : Quiet v s s' := by
  refine ⟨h.kept, ?_⟩
  rw [h.content, splice_nil, Function.update_eq_self]

theorem IsOn.kept (h : IsOn v s e f) (hk : v.toHoldings.Kept s s') : IsOn v s' e f :=
  ⟨fun hne => hk.handle (h.handle hne), hk.path h.path⟩

theorem IsOn.at (h : IsOn v s e f) (offset : ℕ) : IsOn v s { e with offset := offset } f := ⟨h.handle, h.path⟩

theorem prefix_append {whole out bytes : Bytes} {start : ℕ} (h : out <+: whole.drop start)
    (h' : bytes <+: whole.drop (start + out.length)) : out ++ bytes <+: whole.drop start := by
  obtain ⟨rest, hrest⟩ := h
  rw [← List.drop_drop, ← hrest, List.drop_left] at h'
  rw [← hrest]
  exact (List.prefix_append_right_inj out).2 h'

/-! ## Reading -/

/-- An answer the client lets through, of the file's bytes at an offset. -/
structure Read (f : F) (offset capacity : ℕ) (s : σ) (answer : Option (Bytes × Bool) × σ) : Prop where
  quiet : Quiet v s answer.2
  bytes : ∀ {bytes eof}, answer.1 = some (bytes, eof) →
    bytes <+: (v.content s f).drop offset ∧ bytes.length ≤ capacity ∧ (bytes = [] → eof = true)

theorem read_bounded {named : σ → Option F} {wanted capacity : ℕ} {answer : Option (Bytes × Bool) × σ}
    (h : v.toHoldings.Reads named offset wanted s answer) (hf : named s = some f) (hpos : 0 < wanted)
    (hle : wanted ≤ capacity) : Read (v := v) f offset capacity s (bounded wanted answer) := by
  refine ⟨⟨h.kept, h.content⟩, fun {bytes eof} hsome => ?_⟩
  obtain ⟨hanswer, hlen⟩ := Option.filter_eq_some_iff.1 hsome
  obtain ⟨hpre, hend⟩ := h.bytes hf hanswer
  exact ⟨hpre, (of_decide_eq_true hlen).trans hle, hend hpos⟩

theorem volumeRead_read (capacity : ℕ) (h : IsOn v s e f) (hpos : 0 < capacity) (offset : ℕ) :
    Read (v := v) f offset capacity s (volumeRead v.toPorts e.volume e.path offset capacity s) :=
  read_bounded (v.reads _ _ _ _ _) h.path (by unfold kReadMax; omega) (Nat.min_le_left _ _)

theorem volumeReadFrame_read (capacity bits : ℕ) (h : IsOn v s e f) (hhandle : e.handle ≠ 0) (hpos : 0 < capacity)
    (offset : ℕ) : Read (v := v) f offset capacity s (volumeReadFrame v.toPorts e.volume e.handle offset capacity bits s) :=
  read_bounded (v.readsFrame _ _ _ _ _ _) (h.handle hhandle) (Nat.lt_min.2 ⟨hpos, Nat.two_pow_pos bits⟩)
    (Nat.min_le_left _ _)

theorem readInline_read (capacity : ℕ) (h : IsOn v s e f) (hpos : 0 < capacity) :
    Read (v := v) f e.offset capacity s (readInline v.toPorts e capacity s) := by
  have hhandle : ∀ {answer : Option (Bytes × Bool) × σ},
      (if e.handle = 0 then (none, s) else volumeReadHandle v.toPorts e.volume e.handle e.offset capacity s) = answer →
      Read (v := v) f e.offset capacity s answer := by
    rintro answer rfl
    split_ifs with hzero
    · exact ⟨.refl s, fun hsome => nomatch hsome⟩
    · exact read_bounded (v.readsHandle _ _ _ _ _) (h.handle hzero) (by unfold kReadMax; omega) (Nat.min_le_left _ _)
  unfold readInline
  split
  · rename_i answer s' hanswer
    exact hhandle hanswer
  · rename_i s' hanswer
    have hquiet : Quiet v s s' := (hhandle hanswer).quiet
    obtain ⟨hquiet', hbytes⟩ := volumeRead_read capacity (h.kept hquiet.kept) hpos e.offset
    exact ⟨hquiet.trans hquiet', fun hsome => hquiet.content ▸ hbytes hsome⟩

/-- What a read that has `out` from `start` on may end with. -/
structure Ends (e : Entry) (f : F) (start count : ℕ) (s : σ) (r : Bytes × Entry × σ) : Prop where
  quiet : Quiet v s r.2.2
  bytes : r.1 <+: (v.content s f).drop start
  length : r.1.length ≤ count
  entry : r.2.1 = { e with offset := start + r.1.length }

theorem Ends.of_quiet {start count : ℕ} {r : Bytes × Entry × σ} (hq : Quiet v s s')
    (h : Ends (v := v) e f start count s' r) : Ends (v := v) e f start count s r :=
  ⟨hq.trans h.quiet, hq.content ▸ h.bytes, h.length, h.entry⟩

theorem readLoop_ends (start count : ℕ) (h : IsOn v s e f) (out : Bytes) (hout : out <+: (v.content s f).drop start)
    (hlen : out.length ≤ count) :
    ∃ r, Settles (fun fuel => readLoop v.toPorts count fuel { e with offset := start + out.length } out s) r ∧
      Ends (v := v) e f start count s r := by
  induction hn : count - out.length using Nat.strong_induction_on generalizing out s with
  | _ n ih =>
    by_cases hfull : count ≤ out.length
    · exact ⟨_, .last fun fuel => by rw [readLoop, if_pos hfull], .refl s, hout, hlen, rfl⟩
    · have hread := readInline_read (count - out.length) (h.at (start + out.length)) (by omega)
      obtain ⟨answer, s', hanswer⟩ : ∃ answer s', readInline v.toPorts { e with offset := start + out.length }
          (count - out.length) s = (answer, s') := ⟨_, _, rfl⟩
      rw [hanswer] at hread
      cases answer with
      | none => exact ⟨(out, { e with offset := start + out.length }, s'), .last fun fuel => by rw [readLoop, if_neg hfull, hanswer], hread.quiet, hout, hlen, rfl⟩
      | some answer =>
        obtain ⟨bytes, eof⟩ := answer
        obtain ⟨hbytes, hcap, hend⟩ := hread.bytes rfl
        by_cases hnil : bytes = []
        · -- a file that has nothing more says so
          refine ⟨(out, { e with offset := start + out.length }, s'), .last fun fuel => ?_, hread.quiet, hout, hlen, rfl⟩
          rw [readLoop, if_neg hfull, hanswer]
          simp only [hnil, if_true, hend hnil, Bool.true_or]
        · have hpos := List.length_pos_iff.2 hnil
          have hnext : out ++ bytes <+: (v.content s f).drop start := prefix_append hout hbytes
          have hnextLen : (out ++ bytes).length ≤ count := by rw [List.length_append]; omega
          have hoffset : start + out.length + bytes.length = start + (out ++ bytes).length := by
            rw [List.length_append, Nat.add_assoc]
          by_cases heof : eof = true
          · refine ⟨(out ++ bytes, { e with offset := start + (out ++ bytes).length }, s'), .last fun fuel => ?_, hread.quiet, hnext, hnextLen, rfl⟩
            rw [readLoop, if_neg hfull, hanswer]
            simp only [hnil, if_false, heof, if_true, hoffset]
          · have hless : count - (out ++ bytes).length < n := by rw [List.length_append]; omega
            obtain ⟨r, hr, hends⟩ := ih _ hless (h.kept hread.quiet.kept) (out ++ bytes)
              (hread.quiet.content ▸ hnext) hnextLen rfl
            refine ⟨r, .step (fun fuel => ?_) hr, .of_quiet hread.quiet hends⟩
            rw [readLoop, if_neg hfull, hanswer]
            simp only [hnil, if_false, heof, hoffset, Bool.false_eq_true]

theorem readFrames_ends (start count bits : ℕ) (h : IsOn v s e f) (hhandle : e.handle ≠ 0) (out : Bytes) (served : Bool)
    (hout : out <+: (v.content s f).drop start) (hlen : out.length ≤ count) (hserved : served = false → out = []) :
    ∃ served' r, Settles (fun fuel => readFrames v.toPorts count bits fuel { e with offset := start + out.length } out served s)
        (served', r) ∧ Ends (v := v) e f start count s r ∧ (served' = false → r.1 = []) := by
  induction hn : count - out.length using Nat.strong_induction_on generalizing out served s with
  | _ n ih =>
    by_cases hfull : count ≤ out.length
    · exact ⟨served, _, .last fun fuel => by rw [readFrames, if_pos hfull], ⟨.refl s, hout, hlen, rfl⟩, hserved⟩
    · have hread := volumeReadFrame_read (min (count - out.length) (2 ^ bits)) bits (h.at (start + out.length)) hhandle
        (Nat.lt_min.2 ⟨by omega, Nat.two_pow_pos bits⟩) (start + out.length)
      obtain ⟨answer, s', hanswer⟩ : ∃ answer s', volumeReadFrame v.toPorts e.volume e.handle (start + out.length)
          (min (count - out.length) (2 ^ bits)) bits s = (answer, s') := ⟨_, _, rfl⟩
      dsimp only at hread
      rw [hanswer] at hread
      cases answer with
      | none =>
        exact ⟨served, (out, { e with offset := start + out.length }, s'), .last fun fuel => by rw [readFrames, if_neg hfull]; simp only [hanswer],
          ⟨hread.quiet, hout, hlen, rfl⟩, hserved⟩
      | some answer =>
        obtain ⟨bytes, eof⟩ := answer
        obtain ⟨hbytes, hcap, -⟩ := hread.bytes rfl
        by_cases hnil : bytes = []
        · refine ⟨true, (out, { e with offset := start + out.length }, s'), .last fun fuel => ?_, ⟨hread.quiet, hout, hlen, rfl⟩, fun hfalse => nomatch hfalse⟩
          rw [readFrames, if_neg hfull]
          simp only [hanswer, hnil, if_true]
        · have hpos := List.length_pos_iff.2 hnil
          have hnext : out ++ bytes <+: (v.content s f).drop start := prefix_append hout hbytes
          have hnextLen : (out ++ bytes).length ≤ count := by rw [List.length_append]; omega
          have hoffset : start + out.length + bytes.length = start + (out ++ bytes).length := by
            rw [List.length_append, Nat.add_assoc]
          by_cases heof : eof = true
          · refine ⟨true, (out ++ bytes, { e with offset := start + (out ++ bytes).length }, s'), .last fun fuel => ?_, ⟨hread.quiet, hnext, hnextLen, rfl⟩,
              fun hfalse => nomatch hfalse⟩
            rw [readFrames, if_neg hfull]
            simp only [hanswer, hnil, if_false, heof, if_true, hoffset]
          · have hless : count - (out ++ bytes).length < n := by rw [List.length_append]; omega
            obtain ⟨served', r, hr, hends, hserved'⟩ := ih _ hless (h.kept hread.quiet.kept) (out ++ bytes) true
              (hread.quiet.content ▸ hnext) hnextLen (fun hfalse => nomatch hfalse) rfl
            refine ⟨served', r, .step (fun fuel => ?_) hr, .of_quiet hread.quiet hends, hserved'⟩
            rw [readFrames, if_neg hfull]
            simp only [hanswer, hnil, if_false, heof, hoffset, Bool.false_eq_true]

/-- **A read** settles on bytes of the file at the entry's offset, framed or inline. -/
theorem readBytes_ends (h : IsOn v s e f) (count : ℕ) :
    ∃ r, Settles (fun fuel => readBytes v.toPorts fuel e count s) r ∧ Ends (v := v) e f e.offset count s r := by
  have hloop : ∀ {s' : σ}, Quiet v s s' →
      ∃ r, Settles (fun fuel => readLoop v.toPorts count fuel e [] s') r ∧ Ends (v := v) e f e.offset count s r := by
    intro s' hq
    obtain ⟨r, hr, hends⟩ := readLoop_ends e.offset count (h.kept hq.kept) [] (List.nil_prefix) (Nat.zero_le count)
    exact ⟨r, hr, .of_quiet hq hends⟩
  by_cases hbig : kFrameBytes < count
  · -- the inline loop takes over when no frame is served
    have hnone : ∀ {s' : σ}, Quiet v s s' → Settles (fun fuel => readFramed v.toPorts fuel e count s) (none, e, s') →
        ∃ r, Settles (fun fuel => readBytes v.toPorts fuel e count s) r ∧ Ends (v := v) e f e.offset count s r := by
      intro s' hq hframed
      obtain ⟨r, hr, hends⟩ := hloop hq
      refine ⟨r, ?_, hends⟩
      unfold readBytes
      simp only [if_pos hbig]
      exact hframed.bind hr
    by_cases hzero : e.handle = 0
    · exact hnone (.refl s) (.const fun fuel => by rw [readFramed, if_pos hzero])
    by_cases hframe : (v.largeFrame s || v.pageFrame s) = true
    · obtain ⟨served, ⟨out, e', s'⟩, hr, hends, hserved⟩ := readFrames_ends e.offset count
        (if v.largeFrame s then kLargePageBits else kPageBits) h hzero [] false List.nil_prefix (Nat.zero_le count)
        fun _ => rfl
      have hframed : Settles (fun fuel => readFramed v.toPorts fuel e count s)
          (if served then some out else none, e', s') := by
        unfold readFramed
        simp only [if_neg hzero, if_pos hframe]
        exact hr.map fun r => (if r.1 then some r.2.1 else none, r.2.2.1, r.2.2.2)
      cases served with
      | false =>
        obtain rfl : out = [] := hserved rfl
        obtain rfl : e' = e := hends.entry
        exact hnone hends.quiet hframed
      | true =>
        refine ⟨(out, e', s'), ?_, hends⟩
        unfold readBytes
        simp only [if_pos hbig]
        exact hframed.bind (.const fun _ => rfl)
    · exact hnone (.refl s) (.const fun fuel => by rw [readFramed, if_neg hzero, if_neg hframe])
  · obtain ⟨r, hr, hends⟩ := hloop (.refl s)
    exact ⟨r, .congr (fun fuel => by rw [readBytes, if_neg hbig]) hr, hends⟩

/-! ## Writing -/

theorem volumeWrite_wrote (h : IsOn v s e f) (hhandle : e.handle ≠ 0) (offset : ℕ) (bytes : Bytes) :
    ∃ ok taken s', volumeWrite v.toPorts e.volume e.handle offset bytes s = (ok, taken, s') ∧
      Wrote v f offset (bytes.take taken) s s' ∧ (ok = true → taken = bytes.length) ∧
        (ok = false → taken = bytes.length → taken = 0) := by
  unfold volumeWrite
  by_cases hlong : kWriteMax < bytes.length
  · rw [if_pos hlong]
    refine ⟨false, 0, s, rfl, ?_, (fun hok => nomatch hok), fun _ _ => rfl⟩
    rw [List.take_zero]
    exact .refl f offset s
  · rw [if_neg hlong]
    have hwrites := v.writes e.volume e.handle offset bytes s
    obtain ⟨answer, s', hanswer⟩ : ∃ answer s', v.onWrite e.volume e.handle offset bytes s = (answer, s') := ⟨_, _, rfl⟩
    rw [hanswer] at hwrites ⊢
    have hcontent := hwrites.content (h.handle hhandle)
    cases answer with
    | none => exact ⟨false, 0, s', rfl, ⟨hwrites.kept, hcontent⟩, (fun hok => nomatch hok), fun _ _ => rfl⟩
    | some taken =>
      refine ⟨taken == bytes.length, taken, s', rfl, ⟨hwrites.kept, hcontent⟩, fun hok => beq_iff_eq.1 hok, fun hok heq => ?_⟩
      exact absurd heq (beq_eq_false_iff_ne.1 hok)

theorem volumeWriteFrame_wrote (h : IsOn v s e f) (hhandle : e.handle ≠ 0) (offset : ℕ) (bytes : Bytes) :
    ∃ answer s', volumeWriteFrame v.toPorts e.volume e.handle offset bytes s = (answer, s') ∧
      answer.getD 0 ≤ bytes.length ∧ Wrote v f offset (bytes.take (answer.getD 0)) s s' := by
  have hwrites := v.writesFrame e.volume e.handle offset (bytes.take kFrameBytes) s
  obtain ⟨answer, s', hanswer⟩ : ∃ answer s', v.onWriteFrame e.volume e.handle offset (bytes.take kFrameBytes) s = (answer, s') :=
    ⟨_, _, rfl⟩
  simp only [volumeWriteFrame, hanswer]
  rw [hanswer] at hwrites
  have hcontent := hwrites.content (h.handle hhandle)
  have hbound : answer.getD 0 ≤ (bytes.take kFrameBytes).length := by
    cases answer with
    | none => exact Nat.zero_le _
    | some taken => exact hwrites.bound rfl
  have hfilter : answer.filter (fun taken => decide (taken ≤ (bytes.take kFrameBytes).length)) = answer := by
    cases answer with
    | none => rfl
    | some taken => exact Option.filter_some_pos (decide_eq_true hbound)
  dsimp only at hcontent
  rw [List.length_take] at hbound
  refine ⟨answer, s', by rw [hfilter], by omega, hwrites.kept, ?_⟩
  rw [hcontent, List.take_take, Nat.min_eq_left (by omega)]

theorem writeFrames_wrote (h : IsOn v s e f) (hhandle : e.handle ≠ 0) (bytes : Bytes) (total : ℕ) :
    ∃ n s', Settles (fun fuel => writeFrames v.toPorts fuel e bytes total s) (total + n, s') ∧ n ≤ bytes.length ∧
      Wrote v f (e.offset + total) (bytes.take n) s s' := by
  induction hn : bytes.length using Nat.strong_induction_on generalizing bytes total s with
  | _ k ih =>
    by_cases hnil : bytes = []
    · refine ⟨0, s, .last fun fuel => by rw [writeFrames, if_pos hnil]; rfl, Nat.zero_le _, ?_⟩
      rw [List.take_zero]
      exact .refl f _ s
    · obtain ⟨answer, s', hanswer, hbound, hwrote⟩ :=
        volumeWriteFrame_wrote h hhandle (e.offset + total) (bytes.take kFrameBytes)
      rw [List.take_take] at hwrote
      rw [List.length_take] at hbound
      cases answer with
      | none => exact ⟨0, s', .last fun fuel => by rw [writeFrames, if_neg hnil]; simp only [hanswer]; rfl, Nat.zero_le _, hwrote⟩
      | some taken =>
        simp only [Option.getD_some] at hbound hwrote
        rw [Nat.min_eq_left (by omega)] at hwrote
        by_cases hzero : taken = 0
        · subst hzero
          refine ⟨0, s', .last fun fuel => ?_, Nat.zero_le _, hwrote⟩
          rw [writeFrames, if_neg hnil]
          simp only [hanswer, if_true, Nat.add_zero]
        · have htaken : (bytes.take taken).length = taken := by rw [List.length_take]; omega
          have hless : (bytes.drop taken).length < k := by rw [List.length_drop]; omega
          obtain ⟨n, s'', hr, hle, hrest⟩ := ih _ hless (h.kept hwrote.kept) (bytes.drop taken) (total + taken) rfl
          rw [List.length_drop] at hle
          refine ⟨taken + n, s'', .step (fun fuel => ?_) (Nat.add_assoc total taken n ▸ hr), by omega, ?_⟩
          · rw [writeFrames, if_neg hnil]
            simp only [hanswer, if_neg hzero]
          · rw [List.take_add]
            refine hwrote.trans ?_
            rw [htaken, Nat.add_assoc]
            exact hrest

theorem writeLoop_wrote (h : IsOn v s e f) (hhandle : e.handle ≠ 0) (bytes : Bytes) (total : ℕ) (rounds : List Round) :
    ∃ n rest s', Settles (fun fuel => writeLoop v.toPorts fuel e bytes total rounds s) (total + n, rounds ++ rest, s') ∧
      ((∀ r ∈ rest, r.Exact) → n ≤ bytes.length ∧ Wrote v f (e.offset + total) (bytes.take n) s s') := by
  induction hn : bytes.length using Nat.strong_induction_on generalizing bytes total rounds s with
  | _ k ih =>
    by_cases hnil : bytes = []
    · refine ⟨0, [], s, .last fun fuel => by rw [writeLoop, if_pos hnil, List.append_nil]; rfl, fun _ => ⟨Nat.zero_le _, ?_⟩⟩
      rw [List.take_zero]
      exact .refl f _ s
    · obtain ⟨ok, taken, s', hanswer, hwrote, hall, hnone⟩ := volumeWrite_wrote h hhandle (e.offset + total) (bytes.take kWriteMax)
      have hchunk : 0 < (bytes.take kWriteMax).length := by
        rw [List.length_take]
        exact Nat.lt_min.2 ⟨by decide, List.length_pos_iff.2 hnil⟩
      have hle := List.length_take_le' kWriteMax bytes
      cases ok with
      | false =>
        refine ⟨0, [.inline (bytes.take kWriteMax).length taken], s', .last fun fuel => ?_, fun hexact => ⟨Nat.zero_le _, ?_⟩⟩
        · rw [writeLoop, if_neg hnil]
          simp only [hanswer, Bool.false_eq_true, if_false, Nat.add_zero]
        · -- a short answer is not exact, so nothing was taken
          have hzero : taken = 0 := by
            rcases hexact _ List.mem_cons_self with heq | hzero
            · exact hnone rfl heq
            · exact hzero
          rw [hzero, List.take_zero] at hwrote
          rw [List.take_zero]
          exact hwrote
      | true =>
        have htaken := hall rfl
        have hless : (bytes.drop taken).length < k := by rw [List.length_drop]; omega
        obtain ⟨n, rest, s'', hr, hrest⟩ := ih _ hless (h.kept hwrote.kept) (bytes.drop taken) (total + taken)
          (rounds ++ [.inline (bytes.take kWriteMax).length taken]) rfl
        have hsame : (bytes.take kWriteMax).take taken = bytes.take taken := by
          rw [List.take_take, Nat.min_eq_left]
          rw [htaken, List.length_take]
          exact Nat.min_le_left _ _
        rw [hsame] at hwrote
        rw [List.append_assoc, Nat.add_assoc] at hr
        refine ⟨taken + n, .inline (bytes.take kWriteMax).length taken :: rest, s'', .step (fun fuel => ?_) hr, fun hexact => ?_⟩
        · have hsome : taken ≠ 0 := by omega
          rw [writeLoop, if_neg hnil]
          simp only [hanswer, if_true, if_neg hsome]
        · obtain ⟨hn', hwrote'⟩ := hrest fun r hmem => hexact r (List.mem_cons_of_mem _ hmem)
          rw [List.length_drop] at hn'
          refine ⟨by omega, ?_⟩
          rw [List.take_add]
          refine hwrote.trans ?_
          have hlen : (bytes.take taken).length = taken := by rw [List.length_take]; omega
          rw [hlen, Nat.add_assoc]
          exact hwrote'

/-- **A write** settles on the bytes it counts, when its inline answers are exact. -/
theorem writeBytes_wrote (h : IsOn v s e f) (hhandle : e.handle ≠ 0) (bytes : Bytes) :
    ∃ n rounds s', Settles (fun fuel => writeBytes v.toPorts fuel e bytes s)
        (n, { e with offset := e.offset + n }, rounds, s') ∧
      ((∀ r ∈ rounds, r.Exact) → n ≤ bytes.length ∧ Wrote v f e.offset (bytes.take n) s s') := by
  have hframed : ∃ n s', Settles (fun fuel => if kWriteMax < bytes.length ∧ v.writeFrame s then
        writeFrames v.toPorts fuel e bytes 0 s else some (0, s)) (n, s') ∧
      n ≤ bytes.length ∧ Wrote v f e.offset (bytes.take n) s s' := by
    by_cases hbig : kWriteMax < bytes.length ∧ v.writeFrame s = true
    · obtain ⟨n, s', hr, hle, hwrote⟩ := writeFrames_wrote h hhandle bytes 0
      rw [Nat.zero_add] at hr
      exact ⟨n, s', .congr (fun fuel => by rw [if_pos hbig]) hr, hle, hwrote⟩
    · refine ⟨0, s, .const fun fuel => by rw [if_neg hbig], Nat.zero_le _, ?_⟩
      rw [List.take_zero]
      exact .refl f _ s
  obtain ⟨n, s', hr, hle, hwrote⟩ := hframed
  by_cases hsome : 0 < n
  · exact ⟨n, [], s', hr.bind (.const fun fuel => by dsimp only; rw [if_pos hsome]), fun _ => ⟨hle, hwrote⟩⟩
  · -- the page took nothing, so the inline loop starts where the write does
    obtain rfl : n = 0 := by omega
    rw [List.take_zero] at hwrote
    obtain ⟨n, rounds, s'', hloop, hexact⟩ := writeLoop_wrote (h.kept hwrote.kept) hhandle bytes 0 []
    rw [Nat.zero_add, List.nil_append] at hloop
    refine ⟨n, rounds, s'', hr.bind (.congr (fun fuel => ?_)
      (hloop.map fun r => (r.1, { e with offset := e.offset + r.1 }, r.2.1, r.2.2))), fun hrounds => ?_⟩
    · dsimp only
      rw [if_neg hsome]
    · obtain ⟨hle, hwrote'⟩ := hexact hrounds
      exact ⟨hle, hwrote.quiet.wrote hwrote'⟩

/-! ## Copying -/

/-- A copy so far: the bytes it moved are the source's, and they are where it writes. -/
structure Copied (f g : F) (position out count : ℕ) (s : σ) (c : Copy) (s' : σ) : Prop where
  bound : c.total ≤ count
  reads : c.position = position + c.total
  writes : c.out = out + c.total
  bytes : c.total ≤ ((v.content s f).drop position).length
  wrote : Wrote v g out (((v.content s f).drop position).take c.total) s s'

theorem Copied.content {g : F} {position out count : ℕ} {c : Copy} (hne : f ≠ g)
    (h : Copied (v := v) f g position out count s c s') : v.content s' f = v.content s f := by
  rw [h.wrote.content, Function.update_of_ne hne]

theorem Copied.quiet {g : F} {position out count : ℕ} {c : Copy} (h : Copied (v := v) f g position out count s c s')
    (hq : Quiet v s' s'') : Copied (v := v) f g position out count s c s'' := by
  refine ⟨h.bound, h.reads, h.writes, h.bytes, h.wrote.kept.trans hq.kept, ?_⟩
  rw [hq.content, h.wrote.content]

theorem Copied.advance {g : F} {position out count : ℕ} {c : Copy} {bytes : Bytes} {taken : ℕ} {round : Round} (hne : f ≠ g)
    (h : Copied (v := v) f g position out count s c s') (hread : bytes <+: (v.content s' f).drop c.position)
    (hle : taken ≤ bytes.length) (hcount : taken ≤ count - c.total) (hwrote : Wrote v g c.out (bytes.take taken) s' s'') :
    Copied (v := v) f g position out count s (c.advance taken round) s'' := by
  have hbound := h.bound
  rw [h.content hne, h.reads, ← List.drop_drop] at hread
  have hlen := hread.length_le
  rw [List.length_drop] at hlen
  have hbytes := h.bytes
  have hnext : bytes.take taken = (((v.content s f).drop position).drop c.total).take taken := by
    obtain ⟨rest, hrest⟩ := hread
    rw [← hrest, List.take_append_of_le_length hle]
  have hspan : ((v.content s f).drop position).take (c.total + taken) =
      ((v.content s f).drop position).take c.total ++ bytes.take taken := by
    rw [List.take_add, hnext]
  refine ⟨?_, ?_, ?_, ?_, ?_⟩
  · show c.total + taken ≤ count
    omega
  · show c.position + taken = position + (c.total + taken)
    rw [h.reads, Nat.add_assoc]
  · show c.out + taken = out + (c.total + taken)
    rw [h.writes, Nat.add_assoc]
  · show c.total + taken ≤ _
    omega
  · show Wrote v g out (((v.content s f).drop position).take (c.total + taken)) s s''
    rw [hspan]
    refine h.wrote.trans ?_
    rw [List.length_take, Nat.min_eq_left hbytes, ← h.writes]
    exact hwrote

section
variable {from_ to_ : Entry} {g : F} {position out count : ℕ} {s₀ : σ}

theorem Copied.start (f g : F) (position out count : ℕ) (s : σ) (rounds : List Round) :
    Copied (v := v) f g position out count s ⟨0, position, out, rounds⟩ s :=
  ⟨Nat.zero_le _, rfl, rfl, Nat.zero_le _, .refl g out s⟩

theorem copyInline_copied (hne : f ≠ g) (hto : to_.handle ≠ 0) (c : Copy) (hf : IsOn v s from_ f) (hg : IsOn v s to_ g)
    (hc : (∀ r ∈ c.rounds, r.Exact) → Copied (v := v) f g position out count s₀ c s) :
    ∃ c' s', Settles (fun fuel => copyInline v.toPorts from_ to_ count fuel c s) (c', s') ∧
      ((∀ r ∈ c'.rounds, r.Exact) → Copied (v := v) f g position out count s₀ c' s') := by
  induction hn : count - c.total using Nat.strong_induction_on generalizing c s with
  | _ k ih =>
    by_cases hfull : count ≤ c.total
    · exact ⟨c, s, .last fun fuel => by rw [copyInline, if_pos hfull], hc⟩
    obtain ⟨answer, s', hanswer⟩ : ∃ answer s', volumeRead v.toPorts from_.volume from_.path c.position
        (min (count - c.total) kReadMax) s = (answer, s') := ⟨_, _, rfl⟩
    have hread := volumeRead_read (min (count - c.total) kReadMax) hf
      (Nat.lt_min.2 ⟨by omega, by decide⟩) c.position
    rw [hanswer] at hread
    cases answer with
    | none =>
      refine ⟨c, s', .last fun fuel => ?_, fun hexact => (hc hexact).quiet hread.quiet⟩
      rw [copyInline, if_neg hfull]
      simp only [hanswer]
    | some answer =>
      obtain ⟨bytes, eof⟩ := answer
      obtain ⟨hbytes, hcap, -⟩ := hread.bytes rfl
      by_cases hnil : bytes = []
      · refine ⟨c, s', .last fun fuel => ?_, fun hexact => (hc hexact).quiet hread.quiet⟩
        rw [copyInline, if_neg hfull]
        simp only [hanswer, hnil, if_true]
      obtain ⟨ok, taken, s'', hwrite, hwrote, hall, hnone⟩ := volumeWrite_wrote (hg.kept hread.quiet.kept) hto c.out bytes
      have hpos := List.length_pos_iff.2 hnil
      by_cases hok : ok = true ∧ taken ≠ 0
      · obtain rfl := hall hok.1
        have hnext : (∀ r ∈ (c.advance bytes.length (.inline bytes.length bytes.length)).rounds, r.Exact) →
            Copied (v := v) f g position out count s₀ (c.advance bytes.length (.inline bytes.length bytes.length)) s'' := by
          intro hexact
          have hcopied := (hc fun r hr => hexact r (List.mem_append_left _ hr)).quiet hread.quiet
          refine hcopied.advance hne ?_ (Nat.le_refl _) (hcap.trans (Nat.min_le_left _ _)) hwrote
          rw [hread.quiet.content]
          exact hbytes
        by_cases heof : eof = true
        · refine ⟨_, s'', .last fun fuel => ?_, hnext⟩
          rw [copyInline, if_neg hfull]
          simp only [hanswer, hnil, if_false, hwrite, if_pos hok, heof, if_true]
        · have hless : count - (c.advance bytes.length (.inline bytes.length bytes.length)).total < k := by
            show count - (c.total + bytes.length) < k
            omega
          obtain ⟨c', s₃, hr, hcopied⟩ := ih _ hless _ (hf.kept (hread.quiet.kept.trans hwrote.kept))
            (hg.kept (hread.quiet.kept.trans hwrote.kept)) hnext rfl
          refine ⟨c', s₃, .step (fun fuel => ?_) hr, hcopied⟩
          rw [copyInline, if_neg hfull]
          simp only [hanswer, hnil, if_false, hwrite, if_pos hok, heof, Bool.false_eq_true]
      · refine ⟨{ c with rounds := c.rounds ++ [.inline bytes.length taken] }, s'', .last fun fuel => ?_, fun hexact => ?_⟩
        · rw [copyInline, if_neg hfull]
          simp only [hanswer, hnil, if_false, hwrite, if_neg hok]
        · -- an exact answer that ends the copy took nothing
          have hzero : taken = 0 := by
            rcases hexact _ (List.mem_append_right _ List.mem_cons_self) with heq | hzero
            · cases ok with
              | false => exact hnone rfl heq
              | true => exact absurd ⟨rfl, fun hz => by omega⟩ hok
            · exact hzero
          rw [hzero, List.take_zero] at hwrote
          have hcopied := ((hc fun r hr => hexact r (List.mem_append_left _ hr)).quiet hread.quiet).quiet hwrote.quiet
          exact ⟨hcopied.bound, hcopied.reads, hcopied.writes, hcopied.bytes, hcopied.wrote⟩

theorem copyFrames_copied (hne : f ≠ g) (hfrom : from_.handle ≠ 0) (hto : to_.handle ≠ 0) (bits : ℕ) (c : Copy)
    (hf : IsOn v s from_ f) (hg : IsOn v s to_ g)
    (hc : (∀ r ∈ c.rounds, r.Exact) → Copied (v := v) f g position out count s₀ c s) :
    ∃ c' s', Settles (fun fuel => copyFrames v.toPorts from_ to_ count fuel bits c s) (c', s') ∧ IsOn v s' from_ f ∧
      IsOn v s' to_ g ∧ ((∀ r ∈ c'.rounds, r.Exact) → Copied (v := v) f g position out count s₀ c' s') := by
  -- a large frame is given up for a page at most once
  induction hn : 2 * (count - c.total) + (if bits = kLargePageBits then 1 else 0) using Nat.strong_induction_on
    generalizing bits c s with
  | _ k ih =>
    by_cases hfull : count ≤ c.total
    · exact ⟨c, s, .last fun fuel => by rw [copyFrames, if_pos hfull], hf, hg, hc⟩
    obtain ⟨answer, s', hanswer⟩ : ∃ answer s', volumeReadFrame v.toPorts from_.volume from_.handle c.position (2 ^ bits)
        bits s = (answer, s') := ⟨_, _, rfl⟩
    have hread := volumeReadFrame_read (2 ^ bits) bits hf hfrom (Nat.two_pow_pos bits) c.position
    rw [hanswer] at hread
    have hquiet := hread.quiet
    -- no bytes: the page is tried, or the copy is over
    have hrefused : (∀ fuel, copyFrames v.toPorts from_ to_ count (fuel + 1) bits c s =
          if bits = kLargePageBits ∧ c.total = 0 ∧ v.pageFrame s' then
            copyFrames v.toPorts from_ to_ count fuel kPageBits c s' else some (c, s')) →
        ∃ c' s', Settles (fun fuel => copyFrames v.toPorts from_ to_ count fuel bits c s) (c', s') ∧ IsOn v s' from_ f ∧
          IsOn v s' to_ g ∧ ((∀ r ∈ c'.rounds, r.Exact) → Copied (v := v) f g position out count s₀ c' s') := by
      intro hunfold
      by_cases hpage : bits = kLargePageBits ∧ c.total = 0 ∧ v.pageFrame s' = true
      · have hless : 2 * (count - c.total) + (if kPageBits = kLargePageBits then 1 else 0) < k := by
          rw [if_pos hpage.1] at hn
          rw [if_neg (by decide)]
          omega
        obtain ⟨c', s'', hr, hf', hg', hcopied⟩ := ih _ hless kPageBits c (hf.kept hquiet.kept) (hg.kept hquiet.kept)
          (fun hexact => (hc hexact).quiet hquiet) rfl
        exact ⟨c', s'', .step (fun fuel => by rw [hunfold, if_pos hpage]) hr, hf', hg', hcopied⟩
      · exact ⟨c, s', .last fun fuel => by rw [hunfold, if_neg hpage], hf.kept hquiet.kept, hg.kept hquiet.kept,
          fun hexact => (hc hexact).quiet hquiet⟩
    cases answer with
    | none => exact hrefused fun fuel => by rw [copyFrames, if_neg hfull]; simp only [hanswer]
    | some answer =>
      obtain ⟨bytes, eof⟩ := answer
      cases bytes with
      | nil => exact hrefused fun fuel => by rw [copyFrames, if_neg hfull]; simp only [hanswer]
      | cons b bytes =>
        obtain ⟨hbytes, -, -⟩ := hread.bytes rfl
        obtain ⟨answer, s'', hwrite, hbound, hwrote⟩ := volumeWriteFrame_wrote (hg.kept hquiet.kept) hto c.out (b :: bytes)
        have hf' := hf.kept (hquiet.kept.trans hwrote.kept)
        have hg' := hg.kept (hquiet.kept.trans hwrote.kept)
        cases answer with
        | none =>
          refine ⟨c, s'', .last fun fuel => ?_, hf', hg', fun hexact => ((hc hexact).quiet hquiet).quiet hwrote.quiet⟩
          rw [copyFrames, if_neg hfull]
          simp only [hanswer, hwrite]
        | some taken =>
          simp only [Option.getD_some] at hbound hwrote
          by_cases hzero : taken = 0
          · subst hzero
            refine ⟨c, s'', .last fun fuel => ?_, hf', hg', fun hexact => ((hc hexact).quiet hquiet).quiet hwrote.quiet⟩
            rw [copyFrames, if_neg hfull]
            simp only [hanswer, hwrite, if_true]
          have hnext : (∀ r ∈ (c.advance taken (.framed (count - c.total) taken)).rounds, r.Exact) →
              Copied (v := v) f g position out count s₀ (c.advance taken (.framed (count - c.total) taken)) s'' := by
            intro hexact
            have hcopied := (hc fun r hr => hexact r (List.mem_append_left _ hr)).quiet hquiet
            have hleft : taken ≤ count - c.total := hexact _ (List.mem_append_right _ List.mem_cons_self)
            refine hcopied.advance hne ?_ hbound hleft hwrote
            rw [hquiet.content]
            exact hbytes
          by_cases heof : eof = true
          · refine ⟨_, s'', .last fun fuel => ?_, hf', hg', hnext⟩
            rw [copyFrames, if_neg hfull]
            simp only [hanswer, hwrite, hzero, if_false, heof, if_true]
          · have hless : 2 * (count - (c.advance taken (.framed (count - c.total) taken)).total) +
                (if bits = kLargePageBits then 1 else 0) < k := by
              show 2 * (count - (c.total + taken)) + (if bits = kLargePageBits then 1 else 0) < k
              omega
            obtain ⟨c', s₃, hr, hf₃, hg₃, hcopied⟩ := ih _ hless bits _ hf' hg' hnext rfl
            refine ⟨c', s₃, .step (fun fuel => ?_) hr, hf₃, hg₃, hcopied⟩
            rw [copyFrames, if_neg hfull]
            simp only [hanswer, hwrite, hzero, if_false, heof, Bool.false_eq_true]

/-- **A copy** settles on bytes of the source, when its answers are exact. -/
theorem copyBytes_copied (hne : f ≠ g) (hto : to_.handle ≠ 0) (hf : IsOn v s from_ f) (hg : IsOn v s to_ g)
    (position count : ℕ) :
    ∃ c s', Settles (fun fuel => copyBytes v.toPorts fuel from_ to_ position count s) (c, s') ∧
      ((∀ r ∈ c.rounds, r.Exact) → Copied (v := v) f g position to_.offset count s c s') := by
  have hstart := Copied.start (v := v) f g position to_.offset count s []
  have hframed : ∃ c s', Settles (fun fuel => if from_.handle ≠ 0 ∧ 0 < count ∧ (v.largeFrame s || v.pageFrame s) then
        copyFrames v.toPorts from_ to_ count fuel (if v.largeFrame s then kLargePageBits else kPageBits)
          ⟨0, position, to_.offset, []⟩ s else some (⟨0, position, to_.offset, []⟩, s)) (c, s') ∧ IsOn v s' from_ f ∧
      IsOn v s' to_ g ∧ ((∀ r ∈ c.rounds, r.Exact) → Copied (v := v) f g position to_.offset count s c s') := by
    by_cases hframe : from_.handle ≠ 0 ∧ 0 < count ∧ (v.largeFrame s || v.pageFrame s) = true
    · obtain ⟨c, s', hr, hrest⟩ := copyFrames_copied hne hframe.1 hto (if v.largeFrame s then kLargePageBits else kPageBits)
        ⟨0, position, to_.offset, []⟩ hf hg fun _ => hstart
      exact ⟨c, s', .congr (fun fuel => by rw [if_pos hframe]) hr, hrest⟩
    · exact ⟨_, s, .const fun fuel => by rw [if_neg hframe], hf, hg, fun _ => hstart⟩
  obtain ⟨c, s', hr, hf', hg', hcopied⟩ := hframed
  by_cases hsome : 0 < c.total
  · exact ⟨c, s', hr.bind (.const fun fuel => by dsimp only; rw [if_pos hsome]), hcopied⟩
  · obtain ⟨c', s'', hinline, hcopied'⟩ := copyInline_copied hne hto c hf' hg' hcopied
    refine ⟨c', s'', hr.bind (.congr (fun fuel => ?_) hinline), hcopied'⟩
    dsimp only
    rw [if_neg hsome]

end

end

end Aegir.Posix
