import Kevy.Resp.Grammar

/-!
# The borrowed parser against the grammar

The borrowed parser reads the frames of the grammar with one exception: a bulk header that starts with
`-` is an error, also where its number is zero. `PlainFrame` leaves those headers out; the borrowed
parser accepts exactly the plain frames (`parseOneBorrowed_sound`, `parseOneBorrowed_plain`), and the
ranges it records read back the arguments.
-/

namespace Kevy.Resp

open Kevy.Lib List Option

def Bulk.Unsigned (b : Bulk) : Prop := b.header.head? ≠ some minus

/-- One request whose bulk headers carry no minus sign. -/
inductive PlainFrame : Bytes → List Bytes → Prop
  | inline {line : Bytes} : NoCrlf line → line.head? ≠ some star →
      PlainFrame (line ++ crlf) (inlineTokens line)
  | null {header : Bytes} {v : Int} : parseInt header = some v → v < 0 →
      PlainFrame (star :: header ++ crlf) []
  | multi {header : Bytes} {bs : List Bulk} : MultiOk header bs → (∀ b ∈ bs, b.Unsigned) →
      PlainFrame (multiFrame header bs) (bs.map Bulk.data)

theorem PlainFrame.frame {f : Bytes} {args : List Bytes} (h : PlainFrame f args) : Frame f args := by
  cases h with
  | inline hno hstar => exact Frame.inline hno hstar
  | null hv hneg => exact Frame.null hv hneg
  | multi hok _ => exact Frame.multi hok

theorem Frame.plain_or {f : Bytes} {args : List Bytes} (h : Frame f args) :
    PlainFrame f args ∨ ∃ header pre b post, f = multiFrame header (pre ++ b :: post) ∧
      MultiOk header (pre ++ b :: post) ∧ (∀ c ∈ pre, c.Unsigned) ∧ ¬ b.Unsigned := by
  cases h with
  | inline hno hstar => exact .inl (.inline hno hstar)
  | null hv hneg => exact .inl (.null hv hneg)
  | @multi header bs hok =>
    by_cases hall : ∀ b ∈ bs, b.Unsigned
    · exact .inl (.multi hok hall)
    · push Not at hall
      obtain ⟨pre, b, post, rfl, hpre, hb⟩ := exists_first hall
      exact .inr ⟨header, pre, b, post, rfl, hok, hpre, hb⟩

/-! ## Digits -/

theorem parseDigits_nonneg {ds : Bytes} {acc v : Int} (h : parseDigits acc ds = some v) (h0 : 0 ≤ acc) : 0 ≤ v := by
  induction ds generalizing acc v with
  | nil => cases h; exact h0
  | cons b ds ih =>
    rw [parseDigits] at h
    split_ifs at h with hb
    obtain ⟨a, ha, hds⟩ := bind_eq_some_iff.mp h
    refine ih hds ?_
    have hb' : 48 ≤ b.toNat := by
      have : 48 ≤ b ∧ b ≤ 57 := by simpa [isAsciiDigit] using hb
      simpa [UInt8.le_iff_toNat_le] using this.1
    obtain ⟨a', ha', ha⟩ := bind_eq_some_iff.mp ha
    simp only [checkedI64] at ha' ha
    split_ifs at ha' ha
    cases ha'
    cases ha
    omega

theorem bulkDigits_append {ds : Bytes} (tail : Bytes) {acc v : Int} {q : Nat} (h : parseDigits acc ds = some v) :
    bulkDigits (ds ++ tail) q acc = bulkDigits tail (q + ds.length) v := by
  induction ds generalizing acc v q with
  | nil =>
    cases h
    rfl
  | cons b ds ih =>
    rw [parseDigits] at h
    split_ifs at h with hb
    obtain ⟨a, ha, hds⟩ := bind_eq_some_iff.mp h
    rw [cons_append, bulkDigits, if_pos hb, ha]
    simp only [ih hds, length_cons]
    congr 1
    omega

theorem bulkDigits_cr (tail : Bytes) (q : Nat) (acc : Int) : bulkDigits (cr :: tail) q acc = .ok (some (acc, q)) := by
  rw [bulkDigits, if_neg (by decide), if_pos rfl]

variable {rest : Bytes}

theorem bulkDigits_sound {q q' : Nat} {acc v : Int} (h : bulkDigits rest q acc = .ok (some (v, q'))) :
    ∃ ds tail, rest = ds ++ cr :: tail ∧ q' = q + ds.length ∧ parseDigits acc ds = some v := by
  induction rest generalizing q q' acc v with
  | nil => cases h
  | cons b rest ih =>
    rw [bulkDigits] at h
    split_ifs at h with hb hcr
    · cases hp : pushDigit acc b with
      | none => rw [hp] at h; cases h
      | some a =>
        rw [hp] at h
        obtain ⟨ds, tail, rfl, rfl, hds⟩ := ih h
        exact ⟨b :: ds, tail, rfl, by simp; omega, by simp [parseDigits, hb, hp, hds]⟩
    · cases h
      exact ⟨[], rest, by rw [hcr]; rfl, rfl, rfl⟩

theorem bulkDigits_error (ext : Bytes) {q : Nat} {acc : Int} {e : ProtocolError}
    (h : bulkDigits rest q acc = .error e) : bulkDigits (rest ++ ext) q acc = .error e := by
  induction rest generalizing q acc e with
  | nil => cases h
  | cons b rest ih =>
    rw [bulkDigits] at h
    rw [cons_append, bulkDigits]
    split_ifs at h ⊢ with hb hcr
    · cases hp : pushDigit acc b with
      | none => rw [hp] at h; exact h
      | some a => rw [hp] at h; exact ih h
    · exact h

/-! ## Headers -/

theorem digit_of_sub {c : UInt8} (h : ¬ 9 < c - 48) :
    isAsciiDigit c = true ∧ (c - 48).toNat = c.toNat - 48 ∧ 48 ≤ c.toNat ∧ c.toNat ≤ 57 := by
  have hc := c.toNat_lt
  rw [UInt8.lt_iff_toNat_lt, UInt8.toNat_sub] at h
  simp only [isAsciiDigit, decide_eq_true_eq, UInt8.le_iff_toNat_le, UInt8.toNat_sub]
  simp at h ⊢
  omega

variable {buf : Bytes}

theorem getElem?_of_drop {buf : Bytes} {i : Nat} {c : UInt8} (h : buf.drop i = c :: rest) :
    buf[i]? = some c ∧ buf.drop (i + 1) = rest := by
  refine ⟨?_, ?_⟩
  · have := @getElem?_drop _ buf i 0
    rw [h, Nat.add_zero] at this
    exact this.symm
  · rw [← drop_drop, h]
    rfl

theorem smallHeader_sound {at_ len next : Nat} (h : smallHeader buf at_ = some (len, next)) :
    ∃ header, LineAt buf at_ header next ∧ parseInt header = some (len : Int) ∧ len ≤ maxBulkLen ∧
      header.head? ≠ some minus := by
  rw [smallHeader] at h
  obtain ⟨c0, hc0, h⟩ := bind_eq_some_iff.mp h
  by_cases hd0 : 9 < c0 - 48
  · simp [hd0] at h
  obtain ⟨hdig0, hsub0, hlo0, hhi0⟩ := digit_of_sub hd0
  have hm0 : c0 ≠ minus := by rintro rfl; exact absurd hdig0 (by decide)
  simp only [if_neg hd0] at h
  obtain ⟨c1, hc1, h⟩ := bind_eq_some_iff.mp h
  have hp0 := pushDigit_eq 0 (by omega) hdig0 (by omega)
  split_ifs at h with hone htwo
  · cases h
    refine ⟨[c0], ?_, ?_, ?_, by simpa using hm0⟩
    · have hcut : buf.drop at_ = [c0] ++ crlf ++ buf.drop (at_ + 3) := by
        rw [drop_of_getElem? hc0, drop_of_getElem? hc1, drop_of_getElem? hone.2, hone.1]
        rfl
      exact LineAt.of_drop hcut
    · simp only [parseInt, splitSign_digit hdig0, parseDigits, hdig0, hp0]
      simp
      omega
    · rw [hsub0, maxBulkLen]
      omega
  · cases h
    obtain ⟨hdig1, hcr, hlf⟩ := htwo
    obtain ⟨hlo1, hhi1⟩ := digit_bounds hdig1
    have hsub1 : (c1 - 48).toNat = c1.toNat - 48 := by
      rw [UInt8.toNat_sub]
      simp
      omega
    have hp1 := pushDigit_eq (0 * 10 + ((c0.toNat : Int) - 48)) (by omega) hdig1 (by omega)
    refine ⟨[c0, c1], ?_, ?_, ?_, by simpa using hm0⟩
    · have hcut : buf.drop at_ = [c0, c1] ++ crlf ++ buf.drop (at_ + 4) := by
        rw [drop_of_getElem? hc0, drop_of_getElem? hc1, drop_of_getElem? hcr, drop_of_getElem? hlf]
        rfl
      exact LineAt.of_drop hcut
    · simp only [parseInt, splitSign_digit hdig0, parseDigits, hdig0, hp0, hdig1, bind_some, if_true, hp1]
      simp
      omega
    · rw [hsub0, hsub1, maxBulkLen]
      omega

variable {header : Bytes} {v : Int}

theorem header_digits (h : parseInt header = some v) :
    ∃ b sign ds acc, header.head? = some b ∧ ds ≠ [] ∧ parseDigits 0 ds = some acc ∧
      header = sign ++ ds ∧ sign = (if b = minus ∨ b = plus then [b] else []) ∧
      v = if b = minus then -acc else acc := by
  obtain ⟨acc, hacc, hne, hv⟩ := parseInt_eq_some h
  rcases splitSign_cases header with ⟨bs, rfl, hs⟩ | ⟨bs, rfl, hs⟩ | ⟨hs, hsign⟩
  · rw [hs] at hacc hne hv
    exact ⟨minus, [minus], bs, acc, rfl, hne, hacc, rfl, by simp, by simpa using hv⟩
  · rw [hs] at hacc hne hv
    exact ⟨plus, [plus], bs, acc, rfl, hne, hacc, rfl, by simp, by simpa [minus, plus] using hv⟩
  · rw [hs] at hacc hne hv
    cases header with
    | nil => exact absurd rfl hne
    | cons b bs =>
      obtain ⟨h1, h2⟩ := hsign b bs rfl
      exact ⟨b, [], b :: bs, acc, rfl, hne, hacc, rfl, by simp [h1, h2], by simpa [h1] using hv⟩

variable {pos : Nat}

theorem parseBulkLen_digits {buf sign ds : Bytes} {b : UInt8} {acc : Int} (tail : Bytes)
    (hacc : parseDigits 0 ds = some acc) (hb : buf[pos + 1]? = some b)
    (hsign : sign = if b = minus ∨ b = plus then [b] else []) (hbuf : buf.drop (pos + 1) = sign ++ (ds ++ tail)) :
    parseBulkLen buf pos = match bulkDigits tail (pos + 1 + sign.length + ds.length) acc with
      | .error e => .error e
      | .ok none => .ok none
      | .ok (some (acc, q)) => bulkLenEnd buf (b == minus) (pos + 1 + sign.length) acc q := by
  have hstart : (if b = minus ∨ b = plus then pos + 2 else pos + 1) = pos + 1 + sign.length := by
    rw [hsign]
    split_ifs <;> rfl
  have hdigits : bulkDigits (buf.drop (pos + 1 + sign.length)) (pos + 1 + sign.length) 0 =
      bulkDigits tail (pos + 1 + sign.length + ds.length) acc := by
    rw [← drop_drop, hbuf, drop_left, bulkDigits_append _ hacc]
  rw [parseBulkLen, hb]
  simp only [hstart]
  exact hdigits ▸ rfl

theorem parseBulkLen_header {buf : Bytes}
    (hv : parseInt header = some v) (hbuf : buf.drop (pos + 1) = header ++ crlf ++ rest) : parseBulkLen buf pos =
      if header.head? = some minus then .error (.malformed "negative bulk length in request")
      else if maxBulkLen < v.toNat then .error (.malformed "bulk length exceeds proto-max-bulk-len")
      else .ok (some (v.toNat, pos + 1 + header.length + 2)) := by
  obtain ⟨b, sign, ds, acc, hhead, hne, hacc, rfl, hsign, hval⟩ := header_digits hv
  have hb : buf[pos + 1]? = some b := by
    obtain ⟨cs, hcs⟩ := head?_eq_some_iff.mp hhead
    rw [hcs] at hbuf
    exact (getElem?_of_drop hbuf).1
  have hbuf' : buf.drop (pos + 1) = sign ++ (ds ++ (crlf ++ rest)) := by rw [hbuf]; simp
  have hlf : buf[pos + 1 + sign.length + ds.length + 1]? = some lf := by
    have hcut : buf.drop (pos + 1 + sign.length + ds.length) = crlf ++ rest := by
      rw [← drop_drop, ← drop_drop, hbuf', drop_left, drop_left]
    exact (getElem?_of_drop (getElem?_of_drop hcut).2).1
  have hlen : 0 < ds.length := length_pos_iff.mpr hne
  rw [parseBulkLen_digits _ hacc hb hsign hbuf']
  simp only [crlf, cons_append, bulkDigits_cr]
  rw [bulkLenEnd, if_neg (by omega), hlf]
  simp only [ne_eq, not_true_eq_false, if_false, hhead, some.injEq, beq_iff_eq]
  by_cases hm : b = minus
  · rw [if_pos hm, if_pos hm]
  · rw [if_neg hm, if_neg hm, hval, if_neg hm, length_append]
    simp only [Nat.add_assoc]

theorem parseBulkLen_cut {buf cut : Bytes} (hv : parseInt header = some v) (hbuf : buf.drop (pos + 1) = cut)
    (hcut : cut ++ rest = header ++ crlf) (hrest : rest ≠ []) : parseBulkLen buf pos = .ok none := by
  obtain ⟨b, sign, ds, acc, hhead, hne, hacc, rfl, hsign, _⟩ := header_digits hv
  cases hc : cut with
  | nil =>
    have hnone : buf[pos + 1]? = none := by
      rw [List.getElem?_eq_none_iff]
      have := congrArg List.length (hbuf.trans hc)
      simp at this
      omega
    rw [parseBulkLen, hnone]
  | cons c cs =>
  have hb : buf[pos + 1]? = some b := by
    obtain ⟨ds', hds⟩ := head?_eq_some_iff.mp hhead
    rw [hds, hc] at hcut
    rw [(getElem?_of_drop (hbuf.trans hc)).1, (List.cons.inj hcut).1]
  rw [append_assoc] at hcut
  -- the sign is there; what follows it is a front of the digits and the CRLF
  obtain ⟨more, rfl⟩ : ∃ more, cut = sign ++ more := by
    split_ifs at hsign with hs
    · rw [hsign, hc] at hcut ⊢
      exact ⟨cs, by rw [(List.cons.inj hcut).1]; rfl⟩
    · exact ⟨cut, by rw [hsign]; rfl⟩
  rw [append_assoc, append_cancel_left_eq] at hcut
  rcases append_eq_append_iff.mp hcut with ⟨ds', hds, _⟩ | ⟨t, hmore, ht⟩
  · -- cut inside the digits
    have hpre : ∃ a, parseDigits 0 more = some a := by
      rw [hds, parseDigits_append] at hacc
      obtain ⟨a, ha, _⟩ := bind_eq_some_iff.mp hacc
      exact ⟨a, ha⟩
    obtain ⟨a, ha⟩ := hpre
    rw [parseBulkLen_digits [] ha hb hsign (by rw [hbuf]; simp)]
    rfl
  · -- the digits are complete; the CRLF is not
    rcases t with _ | ⟨t0, _ | ⟨t1, t⟩⟩
    · rw [append_nil] at hmore
      rw [parseBulkLen_digits [] hacc hb hsign (by rw [hbuf, hmore]; simp)]
      rfl
    · have ht0 : t0 = cr := (List.cons.inj ht).1.symm
      subst ht0
      have hlf : buf[pos + 1 + sign.length + ds.length + 1]? = none := by
        have := congrArg List.length hbuf
        rw [hmore] at this
        rw [List.getElem?_eq_none_iff]
        simp at this
        omega
      have hlen : 0 < ds.length := length_pos_iff.mpr hne
      rw [parseBulkLen_digits [cr] hacc hb hsign (by rw [hbuf, hmore])]
      rw [bulkDigits_cr]
      simp only [bulkLenEnd, hlf]
      rw [if_neg (by omega)]
    · have := congrArg List.length ht
      simp [crlf] at this
      exact absurd this.2 hrest

theorem bulkLenEnd_sound {neg : Bool} {start q len next : Nat} {acc : Int}
    (h : bulkLenEnd buf neg start acc q = .ok (some (len, next))) : q ≠ start ∧ buf[q + 1]? = some lf ∧ neg = false ∧
      acc.toNat ≤ maxBulkLen ∧ len = acc.toNat ∧ next = q + 2 := by
  rw [bulkLenEnd] at h
  rcases hc : buf[q + 1]? with _ | c <;> simp only [hc] at h
  · split_ifs at h
    cases h
  · split_ifs at h with hq hlf hneg hmax
    cases h
    exact ⟨hq, by rw [not_not.mp hlf], by simpa using hneg, by omega, rfl, rfl⟩

theorem parseBulkLen_sound {pos len next : Nat} (h : parseBulkLen buf pos = .ok (some (len, next))) :
    ∃ header, LineAt buf (pos + 1) header next ∧ parseInt header = some (len : Int) ∧
      len ≤ maxBulkLen ∧ header.head? ≠ some minus := by
  rw [parseBulkLen] at h
  cases hb : buf[pos + 1]? with
  | none => rw [hb] at h; cases h
  | some b =>
  simp only [hb] at h
  rcases hd : bulkDigits (buf.drop (if b = minus ∨ b = plus then pos + 2 else pos + 1))
      (if b = minus ∨ b = plus then pos + 2 else pos + 1) 0 with e | _ | ⟨acc, q⟩
  · rw [hd] at h; cases h
  · rw [hd] at h; cases h
  rw [hd] at h
  obtain ⟨ds, tail, hcut, hq, hacc⟩ := bulkDigits_sound hd
  obtain ⟨hq0, hc, hneg, hmax, rfl, rfl⟩ := bulkLenEnd_sound h
  have hne : ds ≠ [] := by rintro rfl; exact hq0 (by simpa using hq)
  have hm : ¬ b = minus := by simpa using hneg
  have htail : tail = lf :: buf.drop (q + 2) := by
    have h1 : buf.drop q = cr :: tail := by
      rw [hq, ← drop_drop, hcut, drop_left]
    rw [← (getElem?_of_drop h1).2, drop_of_getElem? hc]
  have hnonneg : 0 ≤ acc := parseDigits_nonneg hacc le_rfl
  have hint : ((acc.toNat : Nat) : Int) = acc := Int.toNat_of_nonneg hnonneg
  by_cases hp : b = plus
  · simp only [hp, or_true, if_true] at hcut hq
    refine ⟨plus :: ds, ?_, ?_, by omega, by simp [plus, minus]⟩
    · have hline : buf.drop (pos + 1) = plus :: ds ++ crlf ++ buf.drop (q + 2) := by
        rw [drop_of_getElem? hb, hp, hcut, htail]
        simp
      convert LineAt.of_drop hline using 1
      rw [hq, length_cons]
      omega
    · simp [parseInt, splitSign, plus, hne, hacc, hint]
  · have hs : ¬ (b = minus ∨ b = plus) := by tauto
    simp only [if_neg hs] at hcut hq
    refine ⟨ds, ?_, ?_, by omega, ?_⟩
    · have hline : buf.drop (pos + 1) = ds ++ crlf ++ buf.drop (q + 2) := by
        rw [hcut, htail]
        simp
      convert LineAt.of_drop hline using 1
      rw [hq]
    all_goals
      obtain ⟨d, ds', rfl⟩ := exists_cons_of_ne_nil hne
      have hdig := parseDigits_digits hacc d mem_cons_self
    · simp [parseInt, splitSign_digit hdig, hacc, hint]
    · rintro hmin
      cases hmin
      exact absurd hdig (by decide)

theorem bulkLenEnd_error {neg : Bool} {start q : Nat} {acc : Int} {e : ProtocolError}
    (h : bulkLenEnd buf neg start acc q = .error e) (ext : Bytes) :
    bulkLenEnd (buf ++ ext) neg start acc q = .error e := by
  rw [bulkLenEnd] at h ⊢
  cases hc : buf[q + 1]? with
  | none =>
    simp only [hc] at h
    split_ifs at h with hq
    rwa [if_pos hq]
  | some c =>
    rw [getElem?_append_some hc ext]
    rw [hc] at h
    exact h

theorem parseBulkLen_error {e : ProtocolError}
    (h : parseBulkLen buf pos = .error e) (ext : Bytes) : parseBulkLen (buf ++ ext) pos = .error e := by
  rw [parseBulkLen] at h
  cases hb : buf[pos + 1]? with
  | none => rw [hb] at h; cases h
  | some b =>
  simp only [hb] at h
  obtain ⟨hlt, _⟩ := List.getElem?_eq_some_iff.mp hb
  rw [parseBulkLen, getElem?_append_some hb ext]
  have hstart : (if b = minus ∨ b = plus then pos + 2 else pos + 1) ≤ buf.length := by
    split_ifs <;> omega
  simp only
  generalize (if b = minus ∨ b = plus then pos + 2 else pos + 1) = start at h hstart ⊢
  rw [drop_append_of_le_length hstart]
  rcases hd : bulkDigits (buf.drop start) start 0 with e' | _ | ⟨acc, q⟩
  · rw [hd] at h
    rw [bulkDigits_error ext hd]
    exact h
  · rw [hd] at h; cases h
  rw [hd] at h
  obtain ⟨ds, tail, hcut, rfl, hacc⟩ := bulkDigits_sound hd
  rw [hcut, append_assoc, cons_append, bulkDigits_append _ hacc, bulkDigits_cr]
  exact bulkLenEnd_error h ext

/-! ## Bulk headers, by either path -/

theorem bulkHeader_eq (buf : Bytes) (p : Nat) : bulkHeader buf p = parseBulkLen buf p := by
  rw [bulkHeader]
  cases hs : smallHeader buf (p + 1) with
  | none => rfl
  | some got =>
    obtain ⟨len, next⟩ := got
    obtain ⟨header, hline, hv, hmax, hm⟩ := smallHeader_sound hs
    simp only
    rw [parseBulkLen_header hv hline.cut, if_neg hm, Int.toNat_natCast, if_neg (by omega), hline.next_eq]

theorem readsHeaders_parseBulkLen : ReadsHeaders (fun line => line.head? ≠ some minus) parseBulkLen where
  reads := by
    intro buf line rest pos len hv hmax hm hbuf
    rw [parseBulkLen_header hv hbuf, if_neg hm, Int.toNat_natCast, if_neg (by omega)]
  sound := parseBulkLen_sound
  fails := parseBulkLen_error

theorem borrowBulks_eq (buf : Bytes) : ∀ (count p : Nat) (argv : ArgvBorrowed), borrowBulks buf count p argv =
    bulkLoop parseBulkLen (fun a r => a.pushRange r.1 r.2) buf count p argv := by
  intro count
  induction count with
  | zero => exact fun p argv => rfl
  | succ count ih =>
    intro p argv
    rw [borrowBulks, bulkLoop, bulkHeader_eq]
    simp only [ih]
    rcases parseBulkLen buf p with e | _ | ⟨len, start⟩ <;> rfl

theorem parseMultibulkBorrowed_eq (buf : Bytes) : parseMultibulkBorrowed buf = behindCount { input := buf }
    (fun count p => bulkLoop parseBulkLen (fun a r => a.pushRange r.1 r.2) buf count p { input := buf }) buf := by
  rw [parseMultibulkBorrowed, borrowCount, behindCount]
  simp only [borrowBulks_eq]
  cases hs : smallHeader buf 1 with
  | none =>
    rw [intLine]
    rcases findCrlf buf 1 with _ | hdrEnd
    · rfl
    dsimp only
    rcases parseInt ((buf.drop 1).take (hdrEnd - 1)) with _ | count
    · rfl
    by_cases hneg : count < 0 <;> simp only [andNext, hneg, if_true, if_false]
  | some got =>
    obtain ⟨len, next⟩ := got
    obtain ⟨header, hline, hv, _, _⟩ := smallHeader_sound hs
    rw [intLine_line hv hline.cut, ← hline.next_eq, andNext_some, if_neg (show ¬ (len : Int) < 0 by omega),
      Int.toNat_natCast]

end Kevy.Resp
