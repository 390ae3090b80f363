import ReplicatedLedger.Proofs.Ledger.Contents
import ReplicatedLedger.Proofs.Sync.Intake

/-! # A range comes over as it is

A server sends the blocks of a range in descending order as far as it can read them (`serveDown_append`), and a client
takes them in this order (`receiveDown_append`), so that the two keep in step whatever the length of the range and
wherever it has a hole. In the end both tell the same, and the client reads what the server reads
(`fetch_copies_range`), if the paths of the range do not meet in its directory. If they do, blocks that were sent and
taken are lost (`exists_fetch_incomplete`). -/

namespace ReplicatedLedger.Sync

open Block

variable {client server : Store} {bottom top : UInt64} {low m : Nat} {bs : List Block}

/-- Heights that can be read in descending order. -/
theorem exists_descends (server : Store) (low n : Nat) (hbound : low + n ≤ UInt64.size)
    (h : ∀ height : UInt64, low ≤ height.toNat → height.toNat < low + n → (server.readable height).isSome) :
    ∃ bs, bs.length = n ∧ Descends low bs ∧ ∀ b ∈ bs, server.readable b.height = some b := by
  induction n with
  | zero => exact ⟨[], rfl, rfl, fun b hb => absurd hb List.not_mem_nil⟩
  | succ n ih =>
    obtain ⟨bs, hlength, hdescends, hread⟩ := ih (by omega) fun height hge hlt => h height hge (by omega)
    have htop : (low + n).toUInt64.toNat = low + n := toNat_toUInt64 (by omega)
    obtain ⟨b, hb⟩ := Option.isSome_iff_exists.mp (h (low + n).toUInt64 (by omega) (by omega))
    have hheight := Store.height_of_readable hb
    refine ⟨b :: bs, by rw [List.length_cons, hlength], descends_cons_iff.mpr ⟨?_, hdescends⟩,
      List.forall_mem_cons.mpr ⟨hheight ▸ hb, hread⟩⟩
    rw [hheight, htop, hlength]

/-! ### The two sides -/

/-- **A server sends** the blocks that it reads, before it goes on. -/
theorem serveDown_append (bottom : Nat) (hdescends : Descends (bottom + m) bs)
    (hread : ∀ b ∈ bs, server.readable b.height = some b) :
    serveDown server bottom (m + bs.length) = ((serveDown server bottom m).1.map (· + bs.length),
      bs.flatMap Record.encode ++ (serveDown server bottom m).2) := by
  induction bs with
  | nil => rcases serveDown server bottom m with ⟨_ | _, _⟩ <;> rfl
  | cons b bs ih =>
    obtain ⟨hb, hbs⟩ := descends_cons_iff.mp hdescends
    obtain ⟨hfirst, hlater⟩ := List.forall_mem_cons.mp hread
    have hstep : serveDown server bottom (m + bs.length + 1) =
        ((serveDown server bottom (m + bs.length)).1.map (· + 1),
          Record.encode b ++ (serveDown server bottom (m + bs.length)).2) := by
      simp only [serveDown, ← height_eq_toUInt64 hb, Store.readable_eq_some_iff.mp hfirst]
    rw [List.length_cons, ← Nat.add_assoc, hstep, ih hbs hlater, List.flatMap_cons, List.append_assoc]
    cases (serveDown server bottom m).1 <;> rfl

/-- A server reads from a request which range is asked for. -/
theorem serve_request (server : Store) (hrange : bottom ≤ top) (htop : FitsRequest top) :
    serve server (request bottom top) = serveDown server bottom.toNat (top.toNat - bottom.toNat + 1) := by
  have hle := UInt64.le_iff_toNat_le.mp hrange
  have hsmall : top.toNat < 1 <<< (8 * 4) := htop
  have hbottom : Bytes.toNat ((request bottom top).take 4) = bottom.toNat := by
    rw [request, List.take_left' (Bytes.length_bigEndian 4 _), Bytes.toNat_bigEndian, Nat.mod_eq_of_lt (by omega)]
  have htop' : Bytes.toNat (((request bottom top).drop 4).take 4) = top.toNat := by
    rw [request, List.drop_left' (Bytes.length_bigEndian 4 _),
      List.take_of_length_le (Nat.le_of_eq (Bytes.length_bigEndian 4 _)), Bytes.toNat_bigEndian,
      Nat.mod_eq_of_lt hsmall]
  have hcount : top.toNat + 1 - bottom.toNat = top.toNat - bottom.toNat + 1 := by omega
  unfold serve
  rw [length_request, if_neg (by decide)]
  dsimp only
  rw [hbottom, htop', if_neg (Nat.not_lt.mpr hle), hcount]

theorem serve_append (hrange : bottom ≤ top) (htop : FitsRequest top)
    (hn : top.toNat - bottom.toNat + 1 = m + bs.length) (hdescends : Descends (bottom.toNat + m) bs)
    (hread : ∀ b ∈ bs, server.readable b.height = some b) : serve server (request bottom top) =
      ((serveDown server bottom.toNat m).1.map (· + bs.length),
        bs.flatMap Record.encode ++ (serveDown server bottom.toNat m).2) := by
  rw [serve_request server hrange htop, hn, serveDown_append bottom.toNat hdescends hread]

/-- Gained blocks are read as they are read where they come from. -/
theorem read_eq_of_gains {s : Store} (hgains : client.Gains bs s) (hdescends : Descends low bs)
    (hread : ∀ b ∈ bs, server.readable b.height = some b) (hshort : ∀ b ∈ bs, 1 + b.encode.length ≤ Record.maxLength)
    {height : UInt64} (hge : low ≤ height.toNat) (hlt : height.toNat < low + bs.length) :
    s.read height = server.read height := by
  obtain ⟨b, hb, hheight⟩ := hdescends.exists_iff.mpr ⟨hge, hlt⟩
  obtain rfl := UInt64.toNat_inj.mp hheight
  have hgained := hgains.readable hb (Nat.lt_of_le_of_lt (hshort b hb) (by decide))
  rw [Store.readable_eq_some_iff.mp hgained, Store.readable_eq_some_iff.mp (hread b hb)]

/-! ### Both together -/

/-- A server ends with the marker at a height that it cannot read, and a client with the error that says so. -/
theorem serveDown_of_lacking {bottom k : Nat} {hole : UInt64} (hhole : bottom + k = hole.toNat)
    (hlacks : server.readable hole = none) (s : Store) :
    serveDown server bottom (k + 1) = (.error (.missingBlock hole), Record.marker) ∧
      receiveDown bottom (k + 1) s Record.marker = (.error (.missingBlock hole), s) := by
  have hheight : (bottom + k).toUInt64 = hole := by rw [hhole, Nat.toUInt64_eq, UInt64.ofNat_toNat]
  refine ⟨?_, by simp only [receiveDown, Record.read_marker, hheight]⟩
  cases hread : server.read hole with
  | error e => simp only [serveDown, hheight, hread]
  | ok b => rw [Store.readable_eq_some_iff.mpr hread] at hlacks; cases hlacks

section

variable {patience : Option Nat} (hrange : bottom ≤ top) (htop : FitsRequest top) (hpatience : patience ≠ some 0)
  (hshort : ∀ height b, bottom ≤ height → height ≤ top → server.read height = .ok b →
    1 + b.encode.length ≤ Record.maxLength)
  (hwrites : ∀ e, (fetch client (.ok fun received => (serve server received).2) patience bottom top).result ≠
    .error (.store e))

include hrange htop hpatience hshort hwrites

/-- **The two in step**: the blocks that were sent are stored and read as they were, and both sides go on with the
heights below. -/
theorem fetch_serve_append (hn : top.toNat - bottom.toNat + 1 = m + bs.length)
    (hdescends : Descends (bottom.toNat + m) bs) (hread : ∀ b ∈ bs, server.readable b.height = some b) :
    serve server (request bottom top) = ((serveDown server bottom.toNat m).1.map (· + bs.length),
      bs.flatMap Record.encode ++ (serveDown server bottom.toNat m).2) ∧
    fetch client (.ok fun received => (serve server received).2) patience bottom top =
      ⟨(receiveDown bottom.toNat m (client.writeAll bs) (serveDown server bottom.toNat m).2).1.map
          fun _ => top.toNat - bottom.toNat + 1,
        (receiveDown bottom.toNat m (client.writeAll bs) (serveDown server bottom.toNat m).2).2,
        some (request bottom top)⟩ ∧
    (client.Separates bottom top → client.Gains bs (client.writeAll bs) ∧ ∀ height : UInt64,
      bottom.toNat + m ≤ height.toNat → height ≤ top → (client.writeAll bs).read height = server.read height) := by
  have hle := UInt64.le_iff_toNat_le.mp hrange
  have hshorts : ∀ b ∈ bs, 1 + b.encode.length ≤ Record.maxLength := by
    intro b hb
    have hin : bottom ≤ b.height ∧ b.height ≤ top := hdescends.in_range (Nat.le_add_right _ _) (by omega) b hb
    exact hshort b.height b hin.1 hin.2 (Store.readable_eq_some_iff.mp (hread b hb))
  have hserve := serve_append hrange htop hn hdescends hread
  have htakes : client.TakesAll bs := by
    refine takesAll_of_receiveDown (serveDown server bottom.toNat m).2 hdescends hshorts fun e he => hwrites e ?_
    rw [fetch_eq _ hrange htop hpatience, hserve, hn, he]
    rfl
  refine ⟨hserve, fetch_append _ hrange htop hpatience hn (congrArg Prod.snd hserve) hdescends hshorts htakes,
    fun hsep => ?_⟩
  have hgains := htakes.gains (hdescends.pairwise_apart (Nat.le_add_right _ _) (by omega) hsep)
  refine ⟨hgains, fun height hge hle' => ?_⟩
  rw [UInt64.le_iff_toNat_le] at hle'
  exact read_eq_of_gains hgains hdescends hread hshorts hge (by omega)

/-- **A range comes over as it is.** When a client fetches a range from a server, no block is too long and no write is
refused: if the server can read the range then all of it is sent in descending order, and both sides tell its length;
else both tell the highest height that the server cannot read, and only the blocks above it are sent. The client reads
what was sent as the server does, and nothing else has changed. -/
theorem fetch_copies_range (hsep : client.Separates bottom top) :
    let served := serve server (request bottom top)
    let fetched := fetch client (.ok fun received => (serve server received).2) patience bottom top
    let n := top.toNat - bottom.toNat + 1
    fetched.sent = some (request bottom top) ∧
    ((∀ height, bottom ≤ height → height ≤ top → (server.readable height).isSome) →
      ∃ bs, bs.length = n ∧ Descends bottom.toNat bs ∧ served = (.ok n, bs.flatMap Record.encode) ∧
        fetched.result = .ok n ∧ client.Gains bs fetched.store ∧
        ∀ height, bottom ≤ height → height ≤ top → fetched.store.read height = server.read height) ∧
    ∀ hole, bottom ≤ hole → hole ≤ top → server.readable hole = none →
      (∀ height, hole < height → height ≤ top → (server.readable height).isSome) →
      ∃ bs, bs.length = top.toNat - hole.toNat ∧ Descends (hole.toNat + 1) bs ∧
        served = (.error (.missingBlock hole), bs.flatMap Record.encode ++ Record.marker) ∧
        fetched.result = .error (.missingBlock hole) ∧ client.Gains bs fetched.store ∧
        (∀ height, hole < height → height ≤ top → fetched.store.read height = server.read height) ∧
        ∀ height, bottom ≤ height → height ≤ hole → fetched.store.content? height = client.content? height := by
  intro served fetched n
  have hle := UInt64.le_iff_toNat_le.mp hrange
  have hsmall : top.toNat < UInt32.size := htop
  have hsizes : UInt32.size < UInt64.size := by decide
  refine ⟨congrArg Fetched.sent (fetch_eq _ hrange htop hpatience), fun hall => ?_,
    fun hole hge hle' hlacks habove => ?_⟩
  · obtain ⟨bs, hlength, hdescends, hread⟩ := exists_descends server bottom.toNat n (by omega) fun height hge hlt =>
      hall height (UInt64.le_iff_toNat_le.mpr hge) (UInt64.le_iff_toNat_le.mpr (by omega))
    obtain ⟨hserve, hfetch, hcopied⟩ :=
      fetch_serve_append (m := 0) hrange htop hpatience hshort hwrites (by omega) hdescends hread
    obtain ⟨hgains, hsame⟩ := hcopied hsep
    have hstore : fetched.store = client.writeAll bs := congrArg Fetched.store hfetch
    refine ⟨bs, hlength, hdescends, hserve.trans ?_, congrArg Fetched.result hfetch, hstore ▸ hgains,
      fun height hge hle' => ?_⟩
    · rw [← hlength]
      simp [serveDown, Except.map]
    · rw [hstore]
      exact hsame height (UInt64.le_iff_toNat_le.mp hge) hle'
  · have hge' := UInt64.le_iff_toNat_le.mp hge
    have hlt := UInt64.le_iff_toNat_le.mp hle'
    obtain ⟨k, hk⟩ := Nat.exists_eq_add_of_le hge'
    obtain ⟨bs, hlength, hdescends, hread⟩ := exists_descends server (hole.toNat + 1) (top.toNat - hole.toNat)
      (by omega) fun height hge hlt => habove height (UInt64.lt_iff_toNat_lt.mpr hge) (UInt64.le_iff_toNat_le.mpr (by omega))
    have hlow : hole.toNat + 1 = bottom.toNat + (k + 1) := by omega
    obtain ⟨hserve, hfetch, hcopied⟩ :=
      fetch_serve_append hrange htop hpatience hshort hwrites (by omega) (hlow ▸ hdescends) hread
    obtain ⟨hgains, hsame⟩ := hcopied hsep
    obtain ⟨hserver, hclient⟩ := serveDown_of_lacking hk.symm hlacks (client.writeAll bs)
    rw [hserver] at hserve hfetch
    rw [hclient] at hfetch
    have hstore : fetched.store = client.writeAll bs := congrArg Fetched.store hfetch
    refine ⟨bs, hlength, hdescends, hserve, congrArg Fetched.result hfetch, hstore ▸ hgains,
      fun height hgt hle' => ?_, fun height hge hle' => ?_⟩
    · rw [hstore]
      exact hsame height (hlow ▸ UInt64.lt_iff_toNat_lt.mp hgt) hle'
    · rw [hstore]
      rw [UInt64.le_iff_toNat_le] at hle'
      exact hgains.content?_of_apart (hdescends.apart_below (by omega) (by omega) hsep hge (by omega))

omit hshort in
/-- **A range that comes over whole** stands over what the client held: within it the client reads what the server
reads, and elsewhere what it read before. -/
theorem fetch_whole (hon : client.naming.LeadsOn)
    (hall : ∀ height, bottom ≤ height → height ≤ top →
      ∃ b, server.readable height = some b ∧ 1 + b.encode.length ≤ Record.maxLength) :
    let fetched := fetch client (.ok fun received => (serve server received).2) patience bottom top
    fetched.result = .ok (top.toNat - bottom.toNat + 1) ∧ fetched.store.naming = client.naming ∧
      ∀ height, fetched.store.readable height =
        if bottom ≤ height ∧ height ≤ top then server.readable height else client.readable height := by
  intro fetched
  have hle := UInt64.le_iff_toNat_le.mp hrange
  have hsmall : top.toNat < UInt32.size := htop
  have hsizes : UInt32.size < UInt64.size := by decide
  have hshort : ∀ height b, bottom ≤ height → height ≤ top → server.read height = .ok b →
      1 + b.encode.length ≤ Record.maxLength := by
    intro height b hge hle hread
    obtain ⟨b', hb', hlength⟩ := hall height hge hle
    obtain rfl := Option.some.inj (hb'.symm.trans (Store.readable_eq_some_iff.mpr hread))
    exact hlength
  obtain ⟨bs, hlength, hdescends, hread⟩ := exists_descends server bottom.toNat (top.toNat - bottom.toNat + 1)
    (by omega) fun height hge hlt => by
      obtain ⟨b, hb, -⟩ := hall height (UInt64.le_iff_toNat_le.mpr hge) (UInt64.le_iff_toNat_le.mpr (by omega))
      exact Option.isSome_of_eq_some hb
  obtain ⟨-, hfetch, hcopied⟩ :=
    fetch_serve_append (m := 0) hrange htop hpatience hshort hwrites (by omega) hdescends hread
  obtain ⟨hgains, hsame⟩ := hcopied (hon.separates bottom top)
  have hstore : fetched.store = client.writeAll bs := congrArg Fetched.store hfetch
  refine ⟨congrArg Fetched.result hfetch, hstore ▸ client.naming_writeAll bs, fun height => ?_⟩
  rw [hstore]
  split_ifs with hin
  · exact congrArg Except.toOption (hsame height (UInt64.le_iff_toNat_le.mp hin.1) hin.2)
  · -- a height outside of the range is apart from those of the blocks
    refine Store.readable_congr (hgains.content?_of_apart fun b hb => hon.apart ?_)
    rintro rfl
    exact hin (hdescends.in_range (Nat.le_refl _) (by omega) b hb)

end

/-- A store that takes the blocks of the range refuses none that is fetched. -/
theorem fetch_not_refused {patience : Option Nat} (hrange : bottom ≤ top) (htop : FitsRequest top)
    (hlength : bs.length = top.toNat - bottom.toNat + 1) (hdescends : Descends bottom.toNat bs)
    (hread : ∀ b ∈ bs, server.readable b.height = some b) (hshort : ∀ b ∈ bs, 1 + b.encode.length ≤ Record.maxLength)
    (htakes : client.TakesAll bs) : ∀ e,
      (fetch client (.ok fun received => (serve server received).2) patience bottom top).result ≠ .error (.store e) := by
  intro e he
  by_cases hpatience : patience = some 0
  · rw [hpatience, fetch_of_impatient _ _ hrange htop] at he
    cases he
  · have hn : top.toNat - bottom.toNat + 1 = 0 + bs.length := by omega
    have hserve := serve_append (m := 0) hrange htop hn hdescends hread
    rw [fetch_append _ hrange htop hpatience hn (congrArg Prod.snd hserve) hdescends hshort htakes] at he
    cases he

/-! ### Two blocks -/

/-- Blocks of the heights 2 and 1. -/
def pair : List Block := [.raised 2, .raised 1]

theorem short_of_mem_pair : ∀ b ∈ pair, 1 + b.encode.length ≤ Record.maxLength := by
  intro b hb
  rcases List.mem_pair.mp hb with rfl | rfl <;> exact short_raised _

theorem readable_pair : ∀ b ∈ pair, ((⟨.standard, .fresh⟩ : Store).writeAll pair).readable b.height = some b := by
  have hon : Store.Naming.standard.LeadsOn := by decide +kernel
  have htaken : (⟨.standard, .fresh⟩ : Store).TakesAll pair := by decide +kernel
  have hgains := htaken.gains (List.pairwise_pair.mpr (Store.Naming.LeadsOn.apart hon (by decide)))
  exact fun b hb => hgains.readable hb (Nat.lt_of_le_of_lt (short_of_mem_pair b hb) (by decide))

/-- A server that lacks the lowest block of the range, and a client that holds it. -/
theorem fetch_copies_range_pair :
    let server := (⟨.standard, .fresh⟩ : Store).writeAll pair
    let client := (⟨.standard, .fresh⟩ : Store).writeAll [.raised 0]
    let fetched := fetch client (.ok fun received => (serve server received).2) none 0 2
    server.readable 0 = none ∧ client.readable 0 = some (.raised 0) ∧
      (serve server (request 0 2)).1 = .error (.missingBlock 0) ∧ fetched.result = .error (.missingBlock 0) ∧
      (∀ height, 0 < height → height ≤ 2 → fetched.store.read height = server.read height) ∧
      fetched.store.content? 0 = client.content? 0 := by
  intro server client fetched
  have hlacks : server.readable 0 = none := by decide +kernel
  have hheld : ((⟨.standard, .fresh⟩ : Store).write (.raised 0)).1 = .ok () := by decide +kernel
  have htaken : client.TakesAll pair := by decide +kernel
  have hdescends : Descends ((0 : UInt64).toNat + (0 + 1)) pair := rfl
  have hserve : serve server (request 0 2) = _ := serve_append (by decide) (by decide) rfl hdescends readable_pair
  have hfetched : fetched = _ := fetch_append _ (by decide) (by decide) (by decide) rfl (congrArg Prod.snd hserve)
    hdescends short_of_mem_pair htaken
  obtain ⟨hserver, hclient⟩ := serveDown_of_lacking (Nat.add_zero (0 : UInt64).toNat) hlacks
    (client.writeAll pair)
  have hresult : fetched.result = .error (.missingBlock 0) := by
    rw [hfetched, hserver, hclient]
    rfl
  have hwrites : ∀ e, fetched.result ≠ .error (.store e) := fun e h => by cases hresult.symm.trans h
  have hfresh : Directory.fresh.HoldsOnly fun b => 1 + b.encode.length ≤ Record.maxLength :=
    Directory.holdsOnly_empty _ _ _
  have hholds : server.dir.HoldsOnly fun b => 1 + b.encode.length ≤ Record.maxLength :=
    Store.holdsOnly_write (Store.holdsOnly_write (s := ⟨.standard, .fresh⟩) hfresh (short_raised 2)) (short_raised 1)
  have hsep : client.Separates 0 2 := Store.Naming.LeadsOn.separates (by decide +kernel) 0 2
  have habove : ∀ height, 0 < height → height ≤ 2 → (server.readable height).isSome := by
    intro height hgt hle
    rw [UInt64.lt_iff_toNat_lt] at hgt
    rw [UInt64.le_iff_toNat_le] at hle
    obtain ⟨b, hb, hheight⟩ := hdescends.exists_iff.mpr ⟨hgt, Nat.lt_succ_of_le hle⟩
    exact UInt64.toNat_inj.mp hheight ▸ Option.isSome_of_eq_some (readable_pair b hb)
  obtain ⟨-, -, hcopied⟩ := fetch_copies_range (by decide) (by decide) (by decide)
    (fun _ _ _ _ hread => Store.holdsOnly_read hholds hread) hwrites hsep
  obtain ⟨bs, -, -, hserved, -, -, hsame, hkept⟩ := hcopied 0 (by decide) (by decide) hlacks habove
  exact ⟨hlacks, Store.readable_write_self (b := .raised 0) (fits_raised 0) hheld, congrArg Prod.fst hserved, hresult,
    hsame, hkept 0 (by decide) (by decide)⟩

/-- **Blocks that were sent and taken can be lost** when their paths meet: the server reads two short blocks, both
sides tell that they came over, and the client cannot read the first of them. -/
theorem exists_fetch_incomplete :
    let server := (⟨.standard, .fresh⟩ : Store).writeAll pair
    let fetched := fetch .meeting (.ok fun received => (serve server received).2) none 1 2
    (∀ b ∈ pair, server.readable b.height = some b ∧ 1 + b.encode.length ≤ Record.maxLength) ∧
      (serve server (request 1 2)).1 = .ok 2 ∧ fetched.result = .ok 2 ∧ fetched.store.readable 2 = none := by
  intro server fetched
  have hmeet : (Store.meeting.write (.raised 2)).2.LeadsTo 1 ["blk", "blocks"] ∧
      (Store.meeting.write (.raised 2)).2.LeadsTo 2 ["blk", "blocks"] := by decide +kernel
  have htaken : Store.meeting.TakesAll pair := by decide +kernel
  have hsecond : ((Store.meeting.write (.raised 2)).2.write (.raised 1)).1 = .ok () := htaken.2.1
  have hdescends : Descends ((1 : UInt64).toNat + 0) pair := rfl
  have hserve : serve server (request 1 2) = _ := serve_append (by decide) (by decide) rfl hdescends readable_pair
  have hfetched : fetched = _ := fetch_append _ (by decide) (by decide) (by decide) rfl (congrArg Prod.snd hserve)
    hdescends short_of_mem_pair htaken
  refine ⟨fun b hb => ⟨readable_pair b hb, short_of_mem_pair b hb⟩, congrArg Prod.fst hserve,
    by rw [hfetched]; rfl, ?_⟩
  rw [hfetched]
  exact Store.readable_write_of_meet (b := .raised 1) (fits_raised 1) hsecond hmeet.1 hmeet.2 (by decide)

end ReplicatedLedger.Sync
