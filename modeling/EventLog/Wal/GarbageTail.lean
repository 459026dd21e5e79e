import EventLog.Wal.Corruption
import EventLog.Wal.PartialWrites

/-!
# What a crash leaves behind the synced part

A crash keeps the bytes a `Sync` covered; behind them a file system may leave anything, such
as zeros where data was allocated but never written.  `recover` counts every frame it finds
there, and its checksum is looked at only when it is read.

`garbageTail_recovers_iff` says when that is harmless: the bytes that are left are whole
records as they were reserved, and behind them less than a frame.
-/

namespace EventLog.Wal

open EventLog.Lib

/-! ## Reservations -/

/-- A log over several sessions and what `Reserve` returned so far: offsets and payloads. -/
structure Reservations where
  log : OpenLog
  reserved : List (Nat × Bytes)

def Reservations.step (cs : Checksum) (s : Reservations) (e : SessionEvent) :
    Option Reservations :=
  match s.log.sessionStep cs e with
  | none => none
  | some log =>
    match e with
    | .log e => some { log := log, reserved := s.reserved ++ s.log.newlyReserved cs e }
    | .restart .. => some { s with log := log }

/-- The files hold exactly what was reserved. -/
def Reservations.Inv (cs : Checksum) (s : Reservations) : Prop :=
  ∃ n₀ recs tail cps, LogInv cs n₀ recs tail cps s.log ∧
    ∀ o d, (o, d) ∈ s.reserved ↔ recs[o]? = some d

section Steps

variable {cs : Checksum} {recs : List Bytes} {tail : Bytes} {cps : List Nat}

theorem mem_concat_iff_getElem? {reserved : List (Nat × Bytes)} {d : Bytes}
    (h : ∀ o d, (o, d) ∈ reserved ↔ recs[o]? = some d) (o : Nat) (d' : Bytes) :
    (o, d') ∈ reserved ++ [(recs.length, d)] ↔ (recs ++ [d])[o]? = some d' := by
  rw [List.mem_append, h, List.mem_singleton, List.getElem?_append]
  split_ifs with hlt
  · refine or_iff_left fun heq => ?_
    have := (Prod.mk.inj heq).1
    omega
  · rw [List.getElem?_eq_none (by omega), or_iff_right (by simp)]
    constructor
    · rintro ⟨⟩
      simp
    · intro hget
      obtain ⟨hlen, hd⟩ := List.getElem?_eq_some_iff.mp hget
      rw [List.length_singleton] at hlen
      obtain rfl : o = recs.length := by omega
      simp only [Nat.sub_self, List.getElem_cons_zero] at hd
      rw [hd]

/-- **Step lemma**: the files hold exactly what was reserved. -/
theorem Reservations.Inv.step {s s' : Reservations} {e : SessionEvent} (h : s.Inv cs)
    (hidx : e.AtomicIndex) (hend : WritesAtSize cs s.log e) (hstep : s.step cs e = some s') :
    s'.Inv cs := by
  obtain ⟨n₀, recs, tail, cps, hlog, hres⟩ := h
  simp only [Reservations.step] at hstep
  split at hstep
  · cases hstep
  rename_i log hsession
  cases e with
  | log e =>
    obtain rfl := Option.some.inj hstep
    -- what is reserved gets the offset of the record that is added
    have hnext := nextOffset_step hsession
    have hclean := hlog.clean_of_writesAtSize hend hsession
    have ht := step_logTransition hsession
    rcases newlyReserved_cases cs s.log e with hnil | ⟨data, o, he, hnew⟩
    · rw [hnil] at hnext
      obtain ⟨tail', cps', h', -⟩ := hlog.addReserved hidx hclean ht (Or.inl rfl) hnext
      rw [List.append_nil] at h'
      exact ⟨n₀, recs, tail', cps', h', by rw [hnil, List.append_nil]; exact hres⟩
    · rw [hnew] at hnext
      obtain ⟨tail', cps', h', -⟩ := hlog.addReserved hidx hclean ht
        (Or.inr ⟨data, o, he, rfl⟩) hnext
      refine ⟨n₀, _, tail', cps', h', ?_⟩
      rw [hnew, hlog.next]
      exact mem_concat_iff_getElem? hres
  | restart syncOk idx =>
    obtain rfl := Option.some.inj hstep
    obtain ⟨cps', w', hopen, -, -, h'⟩ := hlog.restart syncOk hidx
    rw [OpenLog.sessionStep, hopen] at hsession
    obtain rfl := Option.some.inj hsession
    exact ⟨_, recs, [], cps', h', hres⟩

end Steps

/-! ## Reading frames -/

section Frames

variable {cs : Checksum} {f rest : Bytes} {fs : List Bytes} {o : Nat}

/-- One round of the walk passes one frame that is not the target. -/
theorem readLoop_frame (a rest : Bytes) (hf : IsFrame cs f) (fuel : Nat) {cur : Nat}
    (hcur : cur ≠ o) :
    readLoop cs (a ++ (f ++ rest)) o (fuel + 1) cur a.length =
      readLoop cs (a ++ (f ++ rest)) o fuel (cur + 1) (a ++ f).length := by
  obtain ⟨hmax, hlen⟩ := hf
  have hfield : lengthAt (a ++ (f ++ rest)) a.length = lengthAt f 0 := by
    rw [lengthAt_append_right, lengthAt_append_left _ (by
      have := lengthSize_le_headerSize cs
      omega)]
  rw [readLoop, if_neg (by simp only [List.length_append]; omega)]
  simp only [hfield]
  rw [if_neg (by omega), if_neg hcur, List.length_append, hlen, Nat.add_assoc]

/-- **Run lemma of the walk over frames.** -/
theorem readLoop_frames (a rest : Bytes) (hfs : ∀ f ∈ fs, IsFrame cs f) (fuel : Nat) {cur : Nat}
    (hcur : cur + fs.length ≤ o) :
    readLoop cs (a ++ (fs.flatten ++ rest)) o (fuel + fs.length) cur a.length =
      readLoop cs (a ++ (fs.flatten ++ rest)) o fuel (cur + fs.length)
        (a ++ fs.flatten).length := by
  induction fs generalizing a cur with
  | nil => rw [List.flatten_nil, List.append_nil]; rfl
  | cons f fs ih =>
    rw [List.length_cons] at hcur
    have hne : cur ≠ o := by omega
    have hnext : cur + 1 + fs.length ≤ o := by omega
    have hstep := readLoop_frame a (fs.flatten ++ rest) (hfs f List.mem_cons_self)
      (fuel + fs.length) hne
    have hrest := ih (a ++ f) (fun g hg => hfs g (List.mem_cons_of_mem f hg)) hnext
    simp only [List.append_assoc] at hrest
    rw [List.flatten_cons, List.append_assoc, List.length_cons, ← Nat.add_assoc, hstep, hrest,
      Nat.add_right_comm cur 1, Nat.add_assoc cur]

/-- A frame is its three fields. -/
theorem IsFrame.fields (hf : IsFrame cs f) :
    ∃ len sum payload : Bytes, f = len ++ (sum ++ payload) ∧ len.length = LengthSize ∧
      sum.length = cs.size ∧ payload.length = beNat len := by
  obtain ⟨-, hlen⟩ := hf
  rw [Checksum.headerSize] at hlen
  refine ⟨f.take LengthSize, (f.drop LengthSize).take cs.size, (f.drop LengthSize).drop cs.size,
    ?_, ?_, ?_, ?_⟩
  · rw [List.take_append_drop, List.take_append_drop]
  · rw [List.length_take]
    omega
  · rw [List.length_take, List.length_drop]
    omega
  · have hfield : lengthAt f 0 = beNat (f.take LengthSize) := by rw [lengthAt, slice_zero]
    rw [List.length_drop, List.length_drop]
    omega

/-- A frame whose payload is returned is the record of that payload. -/
theorem IsFrame.eq_encode (a : Bytes) (hf : IsFrame cs f) {fuel : Nat} {d : Bytes}
    (h : readLoop cs (a ++ (f ++ rest)) o (fuel + 1) o a.length = .ok d) : f = encode cs d := by
  obtain ⟨len, sum, payload, rfl, hlen, hsum, hpayload⟩ := hf.fields
  simp only [List.append_assoc] at h
  obtain ⟨⟨-, -, hcheck⟩, hd⟩ := (readLoop_target_iff ..).mp h
  -- the reader looks at the same three fields
  have hlenAt := slice_middle a len (sum ++ (payload ++ rest))
  have hsumAt := slice_middle (a ++ len) sum (payload ++ rest)
  have hpayAt := slice_middle (a ++ (len ++ sum)) payload rest
  simp only [List.append_assoc, List.length_append, hlen, hsum] at hlenAt hsumAt hpayAt
  have hfield : lengthAt (a ++ (len ++ (sum ++ (payload ++ rest)))) a.length = payload.length := by
    rw [lengthAt, hlenAt, hpayload]
  have hpayload' : payloadAt cs (a ++ (len ++ (sum ++ (payload ++ rest)))) a.length = payload := by
    rw [payloadAt, hfield, Checksum.headerSize, hpayAt]
  rw [hpayload'] at hd hcheck
  subst hd
  rw [hlenAt, sumAt, hsumAt] at hcheck
  -- the length field is the length of the payload in its only encoding
  have hbytes : beBytes LengthSize payload.length = len := by
    rw [hpayload, ← hlen, beBytes_beNat]
  simp only [encode, hbytes, hcheck]

end Frames

/-! ## What recovery makes of the tail -/

section Recovered

variable {cs : Checksum} {recs : List Bytes} {cps : List Nat} {s : InMemoryStore}

/-- Behind the last checkpoint every walk starts at it. -/
theorem readAt_from_last (hs : Indexes cs recs cps s) {k o : Nat} (hk : k = 0 ∨ k ∈ cps)
    (hlast : ∀ c ∈ cps, c ≤ k) (hko : k ≤ o) (file : Bytes) :
    readAt cs file s o = readLoop cs file o (file.length + 1) k (startOf cs recs k) := by
  obtain ⟨f, -, hfo, hskip, hread⟩ := readAt_eq_readLoop hs o
  obtain rfl : f = k := by
    refine Nat.le_antisymm (Nat.le_of_not_lt fun hlt => ?_) (Nat.le_of_not_lt fun hlt => ?_)
    -- the last checkpoint itself is never skipped over
    · have := ((hskip k).mp ⟨by omega, fun c hc _ => hlast c hc⟩).1
      omega
    · have hskipped := ((hskip f).mpr ⟨Nat.le_refl f, by omega⟩).2
      rcases hk with rfl | hk
      · exact absurd hlt (Nat.not_lt_zero f)
      · have := hskipped k hk hko
        omega
  exact hread file

/-- A frame that a read returns holds the payload returned. -/
theorem frame_eq_encode (hs : Indexes cs recs cps s) {k i : Nat} (hk : k = 0 ∨ k ∈ cps)
    (hlast : ∀ c ∈ cps, c ≤ k) {front : Bytes} (hfront : front.length = startOf cs recs k)
    {fs : List Bytes} (hfs : ∀ f ∈ fs, IsFrame cs f) {f d : Bytes} (hf : fs[i]? = some f)
    (hread : readAt cs (front ++ fs.flatten) s (k + i) = .ok d) : f = encode cs d := by
  obtain ⟨hi, rfl⟩ := List.getElem?_eq_some_iff.mp hf
  have hsplit : fs.flatten = (fs.take i).flatten ++ (fs[i] ++ (fs.drop (i + 1)).flatten) := by
    rw [← List.flatten_cons, List.getElem_cons_drop, ← List.flatten_append, List.take_append_drop]
  have hlen : (fs.take i).length = i := List.length_take_of_le (by omega)
  have hcount := length_le_flatten hfs
  rw [readAt_from_last hs hk hlast (by omega), ← hfront] at hread
  -- the walk passes the frames before the target
  have hfuel : (front ++ fs.flatten).length + 1 =
      (front ++ fs.flatten).length - i + 1 + (fs.take i).length := by
    rw [hlen, List.length_append]
    omega
  have hcur : k + (fs.take i).length ≤ k + i := by omega
  have hwalk := readLoop_frames front (fs[i] ++ (fs.drop (i + 1)).flatten)
    (fun g hg => hfs g (List.mem_of_mem_take hg)) ((front ++ fs.flatten).length - i + 1) hcur
  rw [← hsplit, ← hfuel, hread, hsplit, ← List.append_assoc, hlen] at hwalk
  exact (hfs _ (List.getElem_mem hi)).eq_encode _ hwalk.symm

/-- A frame is not less than a frame. -/
theorem IsFrame.not_unfinished {f rest : Bytes} (hf : IsFrame cs f) :
    ¬Unfinished cs (f ++ rest) := by
  obtain ⟨-, hlen⟩ := hf
  have hwidth := lengthSize_le_headerSize cs
  have hfield : lengthAt (f ++ rest) 0 = lengthAt f 0 := lengthAt_append_left rest (by omega)
  rw [Unfinished, hfield, List.length_append]
  omega

end Recovered

/-- What a crash may leave of the log file: the synced part, and behind it any bytes, up to
    the length that was written. -/
def OpenLog.CrashLeaves (w : OpenLog) (file : Bytes) : Prop :=
  w.writer.file.take w.synced <+: file ∧ file.length ≤ w.writer.file.length

/-- The log opens, and every offset it counts is read back as it was reserved. -/
def Recovers (cs : Checksum) (reserved : List (Nat × Bytes)) :
    Except RecoverError WALWriter → Prop
  | .error _ => False
  | .ok w => ∀ o, o < w.nextOffset →
      ∃ d, (o, d) ∈ reserved ∧ readAt cs w.file w.store o = .ok d

/-- The bytes are reserved records at their offsets, and behind them less than a frame. -/
def OnlyReserved (cs : Checksum) (reserved : List (Nat × Bytes)) (file : Bytes) : Prop :=
  ∃ (payloads : List Bytes) (tail : Bytes), file = encodeAll cs payloads ++ tail ∧
    Unfinished cs tail ∧ ∀ o d, payloads[o]? = some d → (o, d) ∈ reserved

section Crash

variable {cs : Checksum} {n₀ : Nat} {recs : List Bytes} {tail : Bytes} {cps : List Nat}
  {w : OpenLog} {reserved : List (Nat × Bytes)} {file : Bytes}

/-- Records that end inside the synced part survive every crash. -/
theorem LogInv.encodeAll_isPrefix (h : LogInv cs n₀ recs tail cps w) (hcrash : w.CrashLeaves file)
    {k : Nat} (hk : startOf cs recs k ≤ w.synced) : encodeAll cs (recs.take k) <+: file := by
  refine List.IsPrefix.trans ?_ hcrash.1
  have hfile : encodeAll cs (recs.take k) <+: w.writer.file := by
    rw [h.file]
    refine List.IsPrefix.trans ?_ (List.prefix_append _ _)
    refine ⟨encodeAll cs (recs.drop k), ?_⟩
    rw [← encodeAll_append, List.take_append_drop]
  exact List.prefix_of_prefix_length_le hfile (List.take_prefix _ _) (by
    have := h.synced_le
    rw [List.length_take]
    exact le_min hk (this.trans' hk))

/-- A crash leaves fewer frames than a `uint64` counts. -/
theorem LogInv.frames_le (h : LogInv cs n₀ recs tail cps w) {fs : List Bytes}
    (hfs : ∀ f ∈ fs, IsFrame cs f) (hle : fs.flatten.length ≤ w.writer.file.length) :
    fs.length ≤ maxUint64 := by
  have hcount := mul_length_le_flatten hfs
  have hpos := headerSize_pos cs
  have hbound := h.bound
  have htail := h.torn.length_lt
  rw [h.file, List.length_append] at hle
  by_contra hgt
  have hmany : cs.headerSize * (maxUint64 + 1) ≤ cs.headerSize * fs.length :=
    Nat.mul_le_mul_left _ (by omega)
  -- the torn tail may be longer than the limit allows, by a header and a payload at most
  have hone : maxUint64 ≤ cs.headerSize * maxUint64 := Nat.le_mul_of_pos_left _ hpos
  rw [Nat.mul_succ] at hmany
  unfold maxFileSize at hbound
  unfold maxUint64 at *
  unfold MaxRecordSize at htail
  omega

/-- What was left is read back if it is nothing but reserved records. -/
theorem recovers_of_onlyReserved (h : LogInv cs n₀ recs tail cps w)
    (hres : ∀ o d, (o, d) ∈ reserved ↔ recs[o]? = some d) (hcrash : w.CrashLeaves file)
    (honly : OnlyReserved cs reserved file) :
    Recovers cs reserved
      (newWalWriter cs file (newInMemoryStore w.writer.store.indexFile NthIndex)) := by
  obtain ⟨payloads, rest, rfl, hrest, hall⟩ := honly
  -- what is left are the first records of the log
  have hpre : payloads <+: recs := List.prefix_iff_getElem?.mpr fun i hi =>
    (hres _ _).mp (hall i _ (List.getElem?_eq_getElem hi))
  have htake := List.prefix_iff_eq_take.mp hpre
  have hmax : ∀ r ∈ payloads, r.length ≤ MaxRecordSize := fun r hr => h.max_le r (hpre.subset hr)
  -- no checkpoint names a record behind them: it would be there in full
  have hin : ∀ k ∈ cps, k < payloads.length := fun k hk => by
    by_contra hge
    have hlt := h.index.lt k hk
    have hnext : recs.take (payloads.length + 1) = payloads ++ [recs[payloads.length]] := by
      rw [List.take_add_one, ← htake, List.getElem?_eq_getElem (by omega), Option.toList_some]
    have hsynced : startOf cs recs (payloads.length + 1) ≤ w.synced :=
      (startOf_mono (by omega)).trans (h.checkpointed k hk).2
    have hleft := h.encodeAll_isPrefix hcrash hsynced
    rw [hnext, encodeAll_concat, List.prefix_append_right_inj] at hleft
    obtain ⟨more, rfl⟩ := hleft
    exact (isFrame_encode (h.max_le _ (List.getElem_mem _))).not_unfinished hrest
  have hload := (Indexes.load_all h.index.ascending h.index.lt h.bound NthIndex).take hin
  rw [← htake, ← h.index.file] at hload
  have hsize : (encodeAll cs payloads).length ≤ maxFileSize :=
    htake ▸ (startOf_le cs recs payloads.length).trans h.bound
  rw [newWalWriter_eq hload hmax hsize hrest]
  intro o ho
  have hd : payloads[o]? = some payloads[o] := List.getElem?_eq_getElem ho
  have hread := readAt_eq [] hload hmax hd
  rw [List.append_nil] at hread
  exact ⟨payloads[o], hall o _ hd, hread⟩

/-- Frames that are all read back as reserved are the records reserved. -/
theorem onlyReserved_of_recovers (h : LogInv cs n₀ recs tail cps w)
    (hres : ∀ o d, (o, d) ∈ reserved ↔ recs[o]? = some d) (hcrash : w.CrashLeaves file)
    (hrec : Recovers cs reserved
      (newWalWriter cs file (newInMemoryStore w.writer.store.indexFile NthIndex))) :
    OnlyReserved cs reserved file := by
  have hload := Indexes.load_all h.index.ascending h.index.lt h.bound NthIndex
  rw [← h.index.file] at hload
  obtain ⟨k, hk, hzero, hlast, hstart⟩ := recoverStart_last hload h.bound
  have hbehind : ∀ c ∈ cps, c ≤ k := fun c hc =>
    (hlast k).mp le_rfl c hc (le_maxUint64 h.bound h.index.lt hc)
  -- the checkpointed records are there, so the scan starts behind intact ones
  have hcheckpoints : ∀ c ∈ cps, startOf cs recs (c + 1) ≤ file.length := fun c hc =>
    (h.encodeAll_isPrefix hcrash (h.checkpointed c hc).2).length_le
  have hkept : startOf cs recs k ≤ w.synced := by
    rcases hzero with rfl | hmem
    · exact Nat.zero_le _
    · exact (startOf_mono (Nat.le_succ k)).trans (h.checkpointed k hmem).2
  have hstart := hstart file hcheckpoints
  obtain ⟨bs, rfl⟩ := h.encodeAll_isPrefix hcrash hkept
  obtain ⟨fs, rest, hfs, rfl, hend⟩ := exists_frames cs bs
  -- the scan counts the records before its start and the frames behind it
  have hoff : k + fs.length ≤ maxUint64 := by
    have hall : ∀ f ∈ (recs.take k).map (encode cs) ++ fs, IsFrame cs f := fun f hf => by
      rcases List.mem_append.mp hf with hf | hf
      · obtain ⟨d, hd, rfl⟩ := List.mem_map.mp hf
        exact isFrame_encode (h.max_le d (List.mem_of_mem_take hd))
      · exact hfs f hf
    have hle := h.frames_le hall (by
      have hlen := hcrash.2
      rw [List.length_append, List.length_append] at hlen
      rw [List.flatten_append, ← encodeAll_eq_flatten, List.length_append]
      omega)
    rwa [List.length_append, List.length_map, List.length_take_of_le hk] at hle
  rcases hend with hrest | hrest
  · rw [newWalWriter_unfinished hfs hoff hrest hstart] at hrec
    -- each frame is returned by the read of its offset
    have hframes : fs <+: (recs.drop k).map (encode cs) :=
      List.prefix_iff_getElem?.mpr fun i hi => by
        obtain ⟨d, hd, hread⟩ := hrec (k + i) (Nat.add_lt_add_left hi k)
        have hf := frame_eq_encode hload hzero hbehind rfl hfs (List.getElem?_eq_getElem hi) hread
        rw [List.getElem?_map, List.getElem?_drop, (hres _ _).mp hd, hf]
        rfl
    have hflat : encodeAll cs ((recs.drop k).take fs.length) = fs.flatten := by
      rw [encodeAll_eq_flatten, List.map_take, ← List.prefix_iff_eq_take.mp hframes]
    refine ⟨recs.take (k + fs.length), rest, ?_, hrest, fun o d hd => (hres o d).mpr ?_⟩
    · rw [List.take_add, encodeAll_append, hflat, List.append_assoc]
    · rw [List.getElem?_take] at hd
      split_ifs at hd
      exact hd
  · rw [newWalWriter_overlong hfs hoff hrest hstart] at hrec
    exact hrec.elim

end Crash

/-- No session yet. -/
def Reservations.empty : Reservations := ⟨OpenLog.empty, []⟩

/-- **When recovery exposes no garbage.**  In every run of `Reserve`, `Commit` and restarts
    and for every file a crash may leave, the log opens with every counted offset read back
    as it was reserved exactly when the file is reserved records at their offsets and less
    than a frame behind them. -/
theorem garbageTail_recovers_iff (cs : Checksum) (es : List SessionEvent) {s : Reservations}
    (file : Bytes) (hidx : ∀ e ∈ es, e.AtomicIndex)
    (hend : Along (Reservations.step cs) (fun s e => WritesAtSize cs s.log e) Reservations.empty es)
    (hrun : run (Reservations.step cs) Reservations.empty es = some s)
    (hcrash : s.log.CrashLeaves file) :
    Recovers cs s.reserved
        (newWalWriter cs file (newInMemoryStore s.log.writer.store.indexFile NthIndex)) ↔
      OnlyReserved cs s.reserved file := by
  have hempty : Reservations.empty.Inv cs :=
    ⟨0, [], [], [], LogInv.empty cs, by simp [Reservations.empty]⟩
  obtain ⟨n₀, recs, tail, cps, hlog, hres⟩ := run_invariant
    (fun _ _ _ h hp hstep => h.step hp.1 hp.2 hstep) hempty
    ((along_of_forall hidx).and hend) hrun
  exact ⟨onlyReserved_of_recovers hlog hres hcrash, recovers_of_onlyReserved hlog hres hcrash⟩

/-- One record, reserved and not synced. -/
def reserveSeven : List SessionEvent := [.log (.reserve [7] .ok)]

/-- A record that is synced, and another one that is not. -/
def ackSixReserveSeven : List SessionEvent :=
  [.log (.reserve [6] .ok), .log (.pass 0), .log (.syncReturn 0 true),
    .log (.relock 0 fun _ => .ok), .log (.pass 0)] ++ reserveSeven

/-- Part of the second record is left: it is truncated, and the first one is read back. -/
theorem garbageTail_recovers_iff_torn : ∃ s w,
    run (Reservations.step crc32c) Reservations.empty ackSixReserveSeven = some s ∧
      s.reserved = [(0, [6]), (1, [7])] ∧
      newWalWriter crc32c (encode crc32c [6] ++ (encode crc32c [7]).take 8)
        (newInMemoryStore s.log.writer.store.indexFile NthIndex) = .ok w ∧ w.nextOffset = 1 ∧
      ∃ d, (0, d) ∈ s.reserved ∧ readAt crc32c w.file w.store 0 = .ok d := by
  have hend : (run (Reservations.step crc32c) Reservations.empty ackSixReserveSeven).map
      (fun s => (s.reserved, s.log.synced, s.log.writer.file, s.log.writer.store.indexFile)) =
      some ([(0, [6]), (1, [7])], 9, encodeAll crc32c [[6], [7]], []) := by decide +kernel
  obtain ⟨s, hrun, heq⟩ := Option.map_eq_some_iff.mp hend
  obtain ⟨hreserved, hsynced, hfile, hindex⟩ : s.reserved = [(0, [6]), (1, [7])] ∧
      s.log.synced = 9 ∧ s.log.writer.file = encodeAll crc32c [[6], [7]] ∧
      s.log.writer.store.indexFile = [] := by
    simpa only [Prod.mk.injEq] using heq
  have hrecovers := (garbageTail_recovers_iff crc32c ackSixReserveSeven
    (encode crc32c [6] ++ (encode crc32c [7]).take 8)
    (by simp [ackSixReserveSeven, reserveSeven, SessionEvent.AtomicIndex, LogEvent.AtomicIndex,
      WriteOutcome.Atomic]) (by decide +kernel) hrun
    ⟨by rw [hsynced, hfile]; decide +kernel, by rw [hfile]; decide +kernel⟩).mpr
    ⟨[[6]], (encode crc32c [7]).take 8, rfl, by decide +kernel, by
      rw [hreserved]
      intro o d hd
      obtain rfl : o = 0 := by
        have := (List.getElem?_eq_some_iff.mp hd).1
        simpa using this
      obtain rfl := Option.some.inj hd
      decide⟩
  have hopen : newWalWriter crc32c (encode crc32c [6] ++ (encode crc32c [7]).take 8)
      (newInMemoryStore [] NthIndex) = .ok (openedWriter crc32c [[6]]
        (newInMemoryStore [] NthIndex).loadCheckpoints) := by decide +kernel
  rw [hindex, hopen] at hrecovers
  exact ⟨s, _, hrun, hreserved, by rw [hindex]; exact hopen, rfl, hrecovers 0 (by decide)⟩

/-- Zeros are left instead: they are a frame of length 0, which is counted and whose checksum
    is wrong. -/
theorem garbageTail_exposed : ∃ s w,
    run (Reservations.step crc32c) Reservations.empty reserveSeven = some s ∧
      s.reserved = [(0, [7])] ∧ s.log.CrashLeaves (List.replicate 9 0) ∧
      newWalWriter crc32c (List.replicate 9 0)
        (newInMemoryStore s.log.writer.store.indexFile NthIndex) = .ok w ∧
      w.nextOffset = 1 ∧
      readAt crc32c w.file w.store 0 = .error (.corruption
        ⟨0, [0, 0, 0, 0], [0x48, 0x67, 0x4b, 0xc7], .checksumMismatch 0⟩) :=
  ⟨_, _, rfl, rfl, ⟨List.nil_prefix, by decide⟩, rfl, rfl, by decide +kernel⟩

end EventLog.Wal
