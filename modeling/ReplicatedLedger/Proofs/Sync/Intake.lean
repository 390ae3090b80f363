import ReplicatedLedger.Proofs.Codec.Canonical
import ReplicatedLedger.Proofs.Store.Filling
import ReplicatedLedger.Sync.Range

/-! # What a client takes off a stream

Whatever is sent to it, a client takes blocks off the stream only as long as the next record holds the block of the
next lower height (`receiveDown_succ`); it stops at the first that does not, for one of the reasons of `Halts`
(`exists_ends`). So the heights that it gains are the highest ones of the range, and if their paths do not meet those
of the others, then the others are as before (`fetch_stays_in_range`). Paths that meet let a block of one height
replace that of another (`exists_fetch_past_range`). -/

namespace ReplicatedLedger.Sync

open Block

theorem toNat_toUInt64 {n : Nat} (h : n < UInt64.size) : n.toUInt64.toNat = n := UInt64.toNat_ofNat_of_lt' h

/-! ### Descending heights -/

/-- The blocks have the heights from `low` up, the highest first. -/
def Descends (low : Nat) (bs : List Block) : Prop := bs.map (·.height.toNat) = (List.range' low bs.length).reverse

variable {low m : Nat} {b : Block} {bs : List Block}

theorem descends_cons_iff : Descends low (b :: bs) ↔ b.height.toNat = low + bs.length ∧ Descends low bs := by
  unfold Descends
  rw [List.length_cons, List.range'_1_concat, List.reverse_append, List.map_cons]
  exact List.cons.injEq _ _ _ _ ▸ Iff.rfl

theorem Descends.exists_iff (h : Descends low bs) {k : Nat} :
    (∃ b ∈ bs, b.height.toNat = k) ↔ low ≤ k ∧ k < low + bs.length := by
  rw [← List.mem_map, h, List.mem_reverse, List.mem_range'_1]

theorem Descends.pairwise_ne (h : Descends low bs) : bs.Pairwise fun b c => b.height ≠ c.height := by
  have hnodup : (bs.map (·.height.toNat)).Nodup := h ▸ List.nodup_reverse.mpr List.nodup_range'
  exact (List.pairwise_map.mp hnodup).imp fun hne heq => hne (congrArg UInt64.toNat heq)

section

variable {bottom top : UInt64} {s : Store} (h : Descends low bs) (hlow : bottom.toNat ≤ low)
  (htop : low + bs.length ≤ top.toNat + 1)

include h hlow htop

theorem Descends.in_range : ∀ b ∈ bs, bottom ≤ b.height ∧ b.height ≤ top := by
  intro b hb
  obtain ⟨hge, hlt⟩ := h.exists_iff.mp ⟨b, hb, rfl⟩
  rw [UInt64.le_iff_toNat_le, UInt64.le_iff_toNat_le]
  omega

/-- The paths of the blocks do not meet. -/
theorem Descends.pairwise_apart (hsep : s.Separates bottom top) :
    bs.Pairwise fun b c => s.Apart b.height c.height := by
  have hin := h.in_range hlow htop
  refine h.pairwise_ne.imp_of_mem fun hb hc hne => ?_
  exact hsep _ _ (hin _ hb).1 (hin _ hb).2 (hin _ hc).1 (hin _ hc).2 hne

/-- Nor do they meet the path of a height below. -/
theorem Descends.apart_below (hsep : s.Separates bottom top) {height : UInt64} (hge : bottom ≤ height)
    (hlt : height.toNat < low) : ∀ b ∈ bs, s.Apart height b.height := by
  intro b hb
  have hlow' : low ≤ b.height.toNat := (h.exists_iff.mp ⟨b, hb, rfl⟩).1
  have hbelow : height < b.height := UInt64.lt_iff_toNat_lt.mpr (Nat.lt_of_lt_of_le hlt hlow')
  obtain ⟨hb', hb''⟩ := h.in_range hlow htop b hb
  exact hsep height b.height hge (UInt64.le_trans (UInt64.le_of_lt hbelow) hb'') hb' hb'' (UInt64.ne_of_lt hbelow)

end

/-! ### Records on a stream -/

/-- The stream starts with records of the blocks, none of them too long, and goes on with the rest. -/
inductive Carries : Bytes → List Block → Bytes → Prop
  | nil (rest : Bytes) : Carries rest [] rest
  | cons {record later rest : Bytes} {b : Block} {bs : List Block} (decode : Record.decode record = .ok b)
      (short : record.length ≤ 4 + Record.maxLength) (carries : Carries later bs rest) :
      Carries (record ++ later) (b :: bs) rest

/-- Why a client stops that expects the block of a height: what comes next on the stream, or its own store. -/
inductive Halts (expected : UInt64) (s : Store) (rest : Bytes) : SyncError → Store → Prop
  /-- There is no record, or not one of a block, or one that is too long. -/
  | record {e : RecordError} (read : Record.read rest = .error e) : Halts expected s rest (.record e) s
  /-- The server says that it has no block. -/
  | marker {later : Bytes} (read : Record.read rest = .ok (none, later)) :
      Halts expected s rest (.missingBlock expected) s
  /-- There is the block of another height. -/
  | height {b : Block} {later : Bytes} (read : Record.read rest = .ok (some b, later)) (ne : b.height ≠ expected) :
      Halts expected s rest (.unexpectedHeight expected b.height) s
  /-- There is the block, and the store refuses it. -/
  | store {b : Block} {later : Bytes} {e : StoreError} {s' : Store} (read : Record.read rest = .ok (some b, later))
      (eq : b.height = expected) (write : s.write b = (.error e, s')) : Halts expected s rest (.store e) s'

/-- How a client ends that lacks the `m` blocks from height `bottom` up: it lacks none, or it stops at the highest. -/
inductive Ends (bottom : Nat) (s : Store) (rest : Bytes) : Nat → Except SyncError Unit × Store → Prop
  | complete : Ends bottom s rest 0 (.ok (), s)
  | halted {m : Nat} {e : SyncError} {s' : Store} (halts : Halts (bottom + m).toUInt64 s rest e s') :
      Ends bottom s rest (m + 1) (.error e, s')

/-- At its end a client leaves the store as it is, but for a verdict. -/
theorem Ends.exists_withVerdicts {bottom m : Nat} {s : Store} {rest : Bytes} {result : Except SyncError Unit × Store}
    (h : Ends bottom s rest m result) : ∃ vs, result.2 = s.withVerdicts vs := by
  cases h with
  | complete => exact ⟨s.dir.verdicts, rfl⟩
  | @halted m e s' halts =>
    cases halts with
    | record read => exact ⟨s.dir.verdicts, rfl⟩
    | marker read => exact ⟨s.dir.verdicts, rfl⟩
    | height read ne => exact ⟨s.dir.verdicts, rfl⟩
    | @store b later e s' read eq write =>
      have hrefused := Store.write_of_error (congrArg Prod.fst write)
      rwa [write] at hrefused

section

variable {bottom n : Nat} {s s' : Store} {stream rest : Bytes} (hread : Record.read stream = .ok (some b, rest))
  (hheight : b.height = (bottom + n).toUInt64)

include hread hheight

theorem receiveDown_of_taken (hwrite : s.write b = (.ok (), s')) :
    receiveDown bottom (n + 1) s stream = receiveDown bottom n s' rest := by
  simp only [receiveDown, hread, hheight, ne_eq, not_true_eq_false, if_false, hwrite]

theorem receiveDown_of_refused {e : StoreError} (hwrite : s.write b = (.error e, s')) :
    receiveDown bottom (n + 1) s stream = (.error (.store e), s') := by
  simp only [receiveDown, hread, hheight, ne_eq, not_true_eq_false, if_false, hwrite]

end

/-- **One step of a client**: it stops, or it takes the block of the height that it expects and goes on. -/
theorem receiveDown_succ (bottom n : Nat) (s : Store) (stream : Bytes) :
    (∃ e s', Halts (bottom + n).toUInt64 s stream e s' ∧ receiveDown bottom (n + 1) s stream = (.error e, s')) ∨
      ∃ b later, Record.read stream = .ok (some b, later) ∧ b.height = (bottom + n).toUInt64 ∧
        (s.write b).1 = .ok () ∧ receiveDown bottom (n + 1) s stream = receiveDown bottom n (s.write b).2 later := by
  rcases hread : Record.read stream with e | ⟨_ | b, later⟩
  · exact Or.inl ⟨_, _, .record hread, by simp only [receiveDown, hread]⟩
  · exact Or.inl ⟨_, _, .marker hread, by simp only [receiveDown, hread]⟩
  · by_cases hheight : b.height = (bottom + n).toUInt64
    · rcases hwrite : s.write b with ⟨e | u, s'⟩
      · exact Or.inl ⟨_, _, .store hread hheight hwrite, receiveDown_of_refused hread hheight hwrite⟩
      · refine Or.inr ⟨b, later, rfl, hheight, by rw [hwrite], ?_⟩
        rw [receiveDown_of_taken hread hheight hwrite, hwrite]
    · have hother : receiveDown bottom (n + 1) s stream =
          (.error (.unexpectedHeight (bottom + n).toUInt64 b.height), s) := by
        simp only [receiveDown, hread, ne_eq, hheight, not_false_iff, if_true]
      exact Or.inl ⟨_, _, .height hread hheight, hother⟩

/-- **A run of a client**: it takes blocks of descending heights off the stream, and ends when it has all of them or
at the first record that does not go on with the order. -/
theorem exists_ends {bottom n : Nat} (hbound : bottom + n ≤ UInt64.size) (s : Store) (stream : Bytes) :
    ∃ bs rest m, n = m + bs.length ∧ Carries stream bs rest ∧ Descends (bottom + m) bs ∧ s.TakesAll bs ∧
      Ends bottom (s.writeAll bs) rest m (receiveDown bottom n s stream) := by
  induction n generalizing s stream with
  | zero => exact ⟨[], stream, 0, rfl, .nil stream, rfl, trivial, .complete⟩
  | succ n ih =>
    obtain ⟨e, s', hhalts, hresult⟩ | ⟨b, later, hread, hheight, hok, hnext⟩ := receiveDown_succ bottom n s stream
    · exact ⟨[], stream, n + 1, rfl, .nil stream, rfl, trivial, hresult ▸ .halted hhalts⟩
    · -- the first block is gained, and then those that are gained from what follows it
      obtain ⟨record, rfl, hdecode, hshort⟩ := Record.exists_of_read hread
      obtain ⟨bs, rest, m, hn, hcarries, hdescends, htakes, hends⟩ := ih (by omega) (s.write b).2 later
      have hsmall : bottom + n < UInt64.size := by omega
      have hb : b.height.toNat = bottom + m + bs.length := by
        rw [hheight, toNat_toUInt64 hsmall]
        omega
      exact ⟨b :: bs, rest, m, by rw [hn]; rfl, .cons hdecode hshort hcarries,
        descends_cons_iff.mpr ⟨hb, hdescends⟩, ⟨hok, htakes⟩, hnext ▸ hends⟩

/-! ### Records that are expected -/

/-- The height that both sides expect in front of the blocks. -/
theorem height_eq_toUInt64 {bottom : Nat} (h : b.height.toNat = bottom + m + bs.length) :
    b.height = (bottom + (m + bs.length)).toUInt64 := by
  rw [← Nat.add_assoc, ← h, Nat.toUInt64_eq, UInt64.ofNat_toNat]

/-- **A client takes** the records of the blocks that it expects, as its store does, before it goes on. -/
theorem receiveDown_append {bottom : Nat} {s : Store} (hdescends : Descends (bottom + m) bs)
    (hshort : ∀ b ∈ bs, 1 + b.encode.length ≤ Record.maxLength) (htakes : s.TakesAll bs) (rest : Bytes) :
    receiveDown bottom (m + bs.length) s (bs.flatMap Record.encode ++ rest) =
      receiveDown bottom m (s.writeAll bs) rest := by
  induction bs generalizing s with
  | nil => rfl
  | cons b bs ih =>
    obtain ⟨hb, hbs⟩ := descends_cons_iff.mp hdescends
    obtain ⟨hfirst, hlater⟩ := List.forall_mem_cons.mp hshort
    obtain ⟨hok, htakes⟩ := htakes
    have hread := Record.read_encode_of_short hfirst (bs.flatMap Record.encode ++ rest)
    rw [List.length_cons, ← Nat.add_assoc, List.flatMap_cons, List.append_assoc,
      receiveDown_of_taken hread (height_eq_toUInt64 hb) (Prod.ext hok rfl)]
    exact ih hbs hlater htakes

/-- Its store takes them if the client does not end because of a block that is refused. -/
theorem takesAll_of_receiveDown {bottom : Nat} {s : Store} (rest : Bytes) (hdescends : Descends (bottom + m) bs)
    (hshort : ∀ b ∈ bs, 1 + b.encode.length ≤ Record.maxLength)
    (hwrites : ∀ e, (receiveDown bottom (m + bs.length) s (bs.flatMap Record.encode ++ rest)).1 ≠ .error (.store e)) :
    s.TakesAll bs := by
  induction bs generalizing s with
  | nil => trivial
  | cons b bs ih =>
    obtain ⟨hb, hbs⟩ := descends_cons_iff.mp hdescends
    obtain ⟨hfirst, hlater⟩ := List.forall_mem_cons.mp hshort
    have hread := Record.read_encode_of_short hfirst (bs.flatMap Record.encode ++ rest)
    rw [List.length_cons, ← Nat.add_assoc, List.flatMap_cons, List.append_assoc] at hwrites
    cases hwrite : s.write b with
    | mk result s' =>
      cases result with
      | error e =>
        rw [receiveDown_of_refused hread (height_eq_toUInt64 hb) hwrite] at hwrites
        exact absurd rfl (hwrites e)
      | ok u =>
        rw [receiveDown_of_taken hread (height_eq_toUInt64 hb) hwrite] at hwrites
        rw [Store.TakesAll, hwrite]
        exact ⟨rfl, ih hbs hlater hwrites⟩

/-! ### Fetching -/

/-- A fetch that reaches a listener sends the range, and stores what comes back. -/
theorem fetch_eq {s : Store} {bottom top : UInt64} {patience : Option Nat} (answer : Listener) (hrange : bottom ≤ top)
    (htop : FitsRequest top) (hpatience : patience ≠ some 0) : fetch s (.ok answer) patience bottom top =
      ⟨(receiveDown bottom.toNat (top.toNat - bottom.toNat + 1) s (answer (request bottom top))).1.map
          fun _ => top.toNat - bottom.toNat + 1,
        (receiveDown bottom.toNat (top.toNat - bottom.toNat + 1) s (answer (request bottom top))).2,
        some (request bottom top)⟩ := by
  have hn : top.toNat + 1 - bottom.toNat = top.toNat - bottom.toNat + 1 := by
    rw [UInt64.le_iff_toNat_le] at hrange
    omega
  unfold fetch
  rw [if_neg (UInt64.not_lt.mpr hrange), if_neg (not_not.mpr htop)]
  dsimp only
  rw [if_neg hpatience, receive, hn]

/-- Without any patience nothing is fetched. -/
theorem fetch_of_impatient (s : Store) {bottom top : UInt64} (answer : Listener) (hrange : bottom ≤ top)
    (htop : FitsRequest top) : fetch s (.ok answer) (some 0) bottom top =
      ⟨.error (.connection .invalidInput), s, none⟩ := by
  unfold fetch
  rw [if_neg (UInt64.not_lt.mpr hrange), if_neg (not_not.mpr htop)]
  rfl

/-- What is fetched from a stream that starts with the records of the range. -/
theorem fetch_append {s : Store} {bottom top : UInt64} {patience : Option Nat} {answer : Listener} (rest : Bytes)
    (hrange : bottom ≤ top) (htop : FitsRequest top) (hpatience : patience ≠ some 0)
    (hn : top.toNat - bottom.toNat + 1 = m + bs.length)
    (hanswer : answer (request bottom top) = bs.flatMap Record.encode ++ rest)
    (hdescends : Descends (bottom.toNat + m) bs) (hshort : ∀ b ∈ bs, 1 + b.encode.length ≤ Record.maxLength)
    (htakes : s.TakesAll bs) : fetch s (.ok answer) patience bottom top =
      ⟨(receiveDown bottom.toNat m (s.writeAll bs) rest).1.map fun _ => top.toNat - bottom.toNat + 1,
        (receiveDown bottom.toNat m (s.writeAll bs) rest).2, some (request bottom top)⟩ := by
  rw [fetch_eq answer hrange htop hpatience, hanswer, hn, receiveDown_append hdescends hshort htakes]

theorem length_request (bottom top : UInt64) : (request bottom top).length = 8 := by
  rw [request, List.length_append, Bytes.length_bigEndian, Bytes.length_bigEndian]

/-- **A server has no say in anything but the next blocks.** Whoever listens, and whatever comes back: a client sends
eight bytes and gains the blocks of the highest heights of the range, each the next one on the stream. It has fetched
the range when these are all; otherwise it stops at the height below, for one of the reasons of `Halts`, and that
height and those below have the files that they had. -/
theorem fetch_stays_in_range {s : Store} {bottom top : UInt64} {patience : Option Nat} (answer : Listener)
    (hrange : bottom ≤ top) (htop : FitsRequest top) (hpatience : patience ≠ some 0) (hsep : s.Separates bottom top) :
    let fetched := fetch s (.ok answer) patience bottom top
    fetched.sent = some (request bottom top) ∧ (request bottom top).length = 8 ∧
    ∃ bs rest, Carries (answer (request bottom top)) bs rest ∧ Descends (top.toNat + 1 - bs.length) bs ∧
      s.Gains bs fetched.store ∧
      (∀ height, bottom ≤ height → height.toNat + bs.length ≤ top.toNat →
        fetched.store.content? height = s.content? height) ∧
      (bs.length = top.toNat - bottom.toNat + 1 ∧ fetched.result = .ok (top.toNat - bottom.toNat + 1) ∨
        ∃ expected e, bottom ≤ expected ∧ expected.toNat + bs.length = top.toNat ∧ fetched.result = .error e ∧
          Halts expected (s.writeAll bs) rest e fetched.store) := by
  intro fetched
  have hle := UInt64.le_iff_toNat_le.mp hrange
  have hsmall : top.toNat < UInt32.size := htop
  have hsizes : UInt32.size < UInt64.size := by decide
  have hbound : bottom.toNat + (top.toNat - bottom.toNat + 1) ≤ UInt64.size := by omega
  have hfetched : fetched = _ := fetch_eq answer hrange htop hpatience
  obtain ⟨bs, rest, m, hn, hcarries, hdescends, htakes, hends⟩ := exists_ends hbound s (answer (request bottom top))
  have hlow : bottom.toNat + m = top.toNat + 1 - bs.length := by omega
  have hcount : bottom.toNat + m + bs.length ≤ top.toNat + 1 := by omega
  have hgains : s.Gains bs fetched.store := by
    have htaken := htakes.gains (hdescends.pairwise_apart (Nat.le_add_right _ _) hcount hsep)
    obtain ⟨vs, hstore⟩ := hends.exists_withVerdicts
    rw [hfetched]
    exact hstore ▸ htaken.withVerdicts vs
  refine ⟨by rw [hfetched], length_request bottom top, bs, rest, hcarries, hlow ▸ hdescends, hgains,
    fun height hge hlt => hgains.content?_of_apart ?_, ?_⟩
  · exact hdescends.apart_below (Nat.le_add_right _ _) hcount hsep hge (by omega)
  · generalize receiveDown bottom.toNat (top.toNat - bottom.toNat + 1) s (answer (request bottom top)) = result
      at hends hfetched
    cases hends with
    | complete =>
      refine Or.inl ⟨by omega, ?_⟩
      rw [hfetched]
      rfl
    | @halted k e s' halts =>
      have hexpected : (bottom.toNat + k).toUInt64.toNat = bottom.toNat + k := toNat_toUInt64 (by omega)
      refine Or.inr ⟨(bottom.toNat + k).toUInt64, e, ?_, by omega, ?_, ?_⟩
      · rw [UInt64.le_iff_toNat_le]
        omega
      · rw [hfetched]
        rfl
      · rw [hfetched]
        exact halts

/-- A server that says that it lacks the second of three blocks, and a client that holds the lowest. -/
theorem fetch_stays_in_range_marked :
    let s := (⟨.standard, .fresh⟩ : Store).writeAll [.raised 1]
    let fetched := fetch s (.ok fun _ => Record.encode (.raised 3) ++ Record.marker) none 1 3
    s.Separates 1 3 ∧ fetched.result = .error (.missingBlock 2) ∧ fetched.store.readable 3 = some (.raised 3) ∧
      s.readable 1 = some (.raised 1) ∧ fetched.store.content? 1 = s.content? 1 := by
  intro s fetched
  have hsep : s.Separates 1 3 := Store.Naming.LeadsOn.separates (by decide +kernel) 1 3
  have hone : ((⟨.standard, .fresh⟩ : Store).write (.raised 1)).1 = .ok () := by decide +kernel
  have hthree : (s.write (.raised 3)).1 = .ok () := by decide +kernel
  have hdescends : Descends ((1 : UInt64).toNat + 2) [.raised 3] := rfl
  have hfetched : fetched = _ := fetch_append Record.marker (by decide) (by decide) (by decide) rfl
    (by rw [List.flatMap_singleton]) hdescends (fun b hb => List.mem_singleton.mp hb ▸ short_raised 3) ⟨hthree, trivial⟩
  have hresult : fetched.result = .error (.missingBlock 2) := by rw [hfetched]; rfl
  have hstore : fetched.store = (s.write (.raised 3)).2 := by rw [hfetched]; rfl
  obtain ⟨-, -, bs, rest, -, -, -, hkept, hend⟩ := fetch_stays_in_range
    (fun _ => Record.encode (.raised 3) ++ Record.marker) (by decide) (by decide) (by decide : none ≠ some 0) hsep
  refine ⟨hsep, hresult, hstore ▸ Store.readable_write_self (b := .raised 3) (fits_raised 3) hthree,
    Store.readable_write_self (b := .raised 1) (fits_raised 1) hone, hkept 1 (by decide) ?_⟩
  obtain ⟨-, hall⟩ | ⟨expected, e, -, hexpected, herror, hhalts⟩ := hend
  · cases hall.symm.trans hresult
  · cases herror.symm.trans hresult
    have hstop : ∀ s', Halts expected (s.writeAll bs) rest (.missingBlock 2) s' → expected.toNat = 2 := by
      rintro s' ⟨⟩
      rfl
    have htwo := hstop _ hhalts
    have htop : (3 : UInt64).toNat = 3 := rfl
    have hone : (1 : UInt64).toNat = 1 := rfl
    omega

/-- **A height below the one at which a client stops can lose its block** when their paths meet: the server sends the
block of height 2 and nothing else, and no write is refused. -/
theorem exists_fetch_past_range :
    let s := Store.meeting.writeAll [.raised 1]
    let fetched := fetch s (.ok fun _ => Record.encode (.raised 2)) none 1 2
    (s.write (.raised 2)).1 = .ok () ∧ fetched.result = .error (.record (.stream .unexpectedEof)) ∧
      s.readable 1 = some (.raised 1) ∧ fetched.store.readable 1 = none := by
  intro s fetched
  have hone : (Store.meeting.write (.raised 1)).1 = .ok () := by decide +kernel
  have htwo : (s.write (.raised 2)).1 = .ok () := by decide +kernel
  have hmeet : s.LeadsTo 1 ["blk", "blocks"] ∧ s.LeadsTo 2 ["blk", "blocks"] := by decide +kernel
  have hdescends : Descends ((1 : UInt64).toNat + 1) [.raised 2] := rfl
  have hfetched : fetched = _ := fetch_append [] (by decide) (by decide) (by decide) rfl
    (by rw [List.flatMap_singleton, List.append_nil]) hdescends (fun b hb => List.mem_singleton.mp hb ▸ short_raised 2)
    ⟨htwo, trivial⟩
  refine ⟨htwo, by rw [hfetched]; rfl, Store.readable_write_self (b := .raised 1) (fits_raised 1) hone, ?_⟩
  rw [hfetched]
  exact Store.readable_write_of_meet (b := .raised 2) (fits_raised 2) htwo hmeet.2 hmeet.1 (by decide)

end ReplicatedLedger.Sync
