import TortoiseSvn.Merge.TextFilters

/-!
# Encoding and decoding a line

Swapping bytes twice gives back the memory, and the characters of well-formed UTF-16 give back its code
units. With the lengths that the filters set, this is all that is needed for UTF-16; the UTF-32 filters
write inside their length only when they need half of what they write.

Main result: `roundTrips_iff`.
-/

namespace TortoiseSvn.Merge

namespace FileText

open Lib CBuffer

/-! ### Swapping a buffer -/

theorem flipWord_flipWord (a : ℕ) : flipWord (flipWord a) = a := by
  unfold flipWord
  split_ifs <;> omega

theorem flipDword_flipDword (a : ℕ) : flipDword (flipDword a) = a := by
  unfold flipDword
  omega

/-- What a buffer holds after its words are swapped, in place or from another memory. -/
theorem swapWords_eq {b : CBuffer} {nBytes : ℕ} (heven : 2 ∣ nBytes) (hused : nBytes ≤ b.used)
    {source : Memory → Memory} (hsource : ∀ m x, (∀ a, x ≤ a → m a = b.memory a) →
      ∀ a, x ≤ a → source m a = source b.memory a) :
    swapWords source nBytes b = some (b.withMemory fun a =>
      if a < nBytes then source b.memory (flipWord a) else b.memory a) := by
  refine putLoops_eq (x := nBytes / 8 * 8) ?_ ?_ (Nat.mul_comm _ _) (by omega) (by omega) hused
  · intro m n hm k hk
    change byte _ k = source b.memory (flipWord (8 * n + k))
    have hk : k < 8 := hk
    have hflip : flipWord k < 8 ∧ flipWord (8 * n + k) = 8 * n + flipWord k := by
      unfold flipWord
      split_ifs <;> omega
    rw [byte_wordSwapBytes _ hk, byte_load _ _ (by omega), hflip.2]
    exact hsource m (8 * n) hm _ (by omega)
  · intro m n hm k hk
    change byte _ k = source b.memory (flipWord (2 * n + k))
    have hk : k < 2 := hk
    have hflip : flipWord k < 2 ∧ flipWord (2 * n + k) = 2 * n + flipWord k := by
      unfold flipWord
      split_ifs <;> omega
    rw [byte_wideCharSwap _ hk, byte_load _ _ (by omega), hflip.2]
    exact hsource m (2 * n) hm _ (by omega)

/-- What a buffer holds after its dwords are swapped. -/
theorem swapDwords_eq {b : CBuffer} (hfour : 4 ∣ b.used) :
    swapDwords b = some (b.withMemory fun a =>
      if a < b.used then b.memory (flipDword a) else b.memory a) := by
  refine putLoops_eq (x := b.used / 8 * 8) ?_ ?_ (Nat.mul_comm _ _) (by omega) (by omega) le_rfl
  · intro m n hm k hk
    change byte _ k = b.memory (flipDword (8 * n + k))
    have hk : k < 8 := hk
    have hflip : flipDword k < 8 ∧ flipDword (8 * n + k) = 8 * n + flipDword k := by
      unfold flipDword
      omega
    rw [byte_dwordSwapBytes64 _ hk, byte_load _ _ (by omega), hflip.2]
    exact hm _ (by omega)
  · intro m n hm k hk
    change byte _ k = b.memory (flipDword (4 * n + k))
    have hk : k < 4 := hk
    have hflip : flipDword k < 4 ∧ flipDword (4 * n + k) = 4 * n + flipDword k := by
      unfold flipDword
      omega
    rw [byte_dwordSwapBytes _ hk, byte_load _ _ (by omega), hflip.2]
    exact hm _ (by omega)

/-! ### Strings in memory -/

theorem load_textMemory (s : Text) (n : ℕ) :
    (textMemory s).load 16 (2 * n) = (s.getD n 0).toBitVec := by
  refine load_eq _ _ fun k hk => ?_
  rw [textMemory, show (2 * n + k) / 2 = n by omega, show (2 * n + k) % 2 = k by omega]

/-- A buffer that holds a string. -/
theorem text_eq {b : CBuffer} {s : Text} (hused : b.used = s.length * 2)
    (hmemory : ∀ a < b.used, b.memory a = textMemory s a) : b.text = s := by
  rw [text, hused, Nat.mul_div_cancel _ (by norm_num)]
  refine List.ext_getElem (by simp) fun n hn hn' => ?_
  have hload : b.memory.load 16 (2 * n) = (textMemory s).load 16 (2 * n) :=
    load_congr fun k hk => hmemory _ (by omega)
  rw [List.getElem_map, List.getElem_range, hload, load_textMemory,
    List.getD_eq_getElem?_getD, List.getElem?_eq_getElem hn', Option.getD_some]

/-- A buffer that holds values of 32 bits. -/
theorem map_load_eq {m : Memory} {vs : List (BitVec 32)}
    (h : ∀ i v, vs[i]? = some v → m.load 32 (4 * i) = v) :
    ((List.range vs.length).map fun i => m.load 32 (4 * i)) = vs := by
  refine List.ext_getElem (by simp) fun i hi hi' => ?_
  rw [List.getElem_map, List.getElem_range]
  exact h i _ (List.getElem?_eq_getElem hi')

/-! ### Characters -/

theorem toNat_widen (c : UInt16) : (widen c).toNat = c.toNat := by
  rw [widen, BitVec.toNat_setWidth, Nat.mod_eq_of_lt]
  · rfl
  · have hlt := c.toNat_lt
    change c.toNat < 2 ^ 32
    omega

/-- The upper six bits of a code unit. -/
theorem div_eq_of_and {c x : UInt16} (h : c &&& 0xfc00 = x) : c.toNat / 1024 = x.toNat / 1024 := by
  have hlt := c.toNat_lt
  have hdiv : (c &&& 0xfc00).toNat / 1024 = c.toNat / 1024 := by
    rw [UInt16.toNat_and]
    change (c.toNat &&& 64512) / 2 ^ 10 = c.toNat / 2 ^ 10
    rw [Nat.and_div_two_pow]
    change c.toNat / 2 ^ 10 &&& 2 ^ 6 - 1 = _
    rw [Nat.and_two_pow_sub_one_eq_mod, Nat.mod_eq_of_lt (by omega)]
  rw [← hdiv, h]

theorem toNat_pairChar {c d : UInt16} (hc : IsLead c) (hd : IsTrail d) :
    (pairChar c d).toNat = 0x10000 + (c.toNat - 0xd800) * 1024 + (d.toNat - 0xdc00) ∧
      0xd800 ≤ c.toNat ∧ c.toNat < 0xdc00 ∧ 0xdc00 ≤ d.toNat ∧ d.toNat < 0xe000 := by
  have hlead : c.toNat / 1024 = 54 := div_eq_of_and hc
  have htrail : d.toNat / 1024 = 55 := div_eq_of_and hd
  refine ⟨?_, by omega, by omega, by omega, by omega⟩
  have hlow : ∀ e : UInt16, (widen e &&& 0x3ff).toNat = e.toNat % 1024 := fun e => by
    rw [BitVec.toNat_and, toNat_widen]
    exact Nat.and_two_pow_sub_one_eq_mod _ 10
  rw [pairChar, BitVec.toNat_add, BitVec.toNat_add, BitVec.toNat_shiftLeft, hlow, hlow,
    Nat.shiftLeft_eq]
  change (((65536 + (c.toNat % 1024 * 1024 % 4294967296)) % 4294967296) + d.toNat % 1024) %
    4294967296 = _
  omega

/-- Setting a bit that may be set already. -/
theorem or_trail : ∀ x < 2048, x ||| 0xdc00 = x % 1024 + 0xdc00 := by
  intro x hx
  have hlow : x % 1024 < 2 ^ 10 := Nat.mod_lt _ (by decide)
  have hsplit : x = 2 ^ 10 * (x / 1024) ||| x % 1024 := by
    rw [← Nat.two_pow_add_eq_or_of_lt hlow]
    omega
  -- the bit is set on the left side, or it is not
  have hhigh : 2 ^ 10 * (x / 1024) ||| 0xdc00 = 2 ^ 10 * 55 := by
    have hbit : x / 1024 = 0 ∨ x / 1024 = 1 := by omega
    rcases hbit with h | h <;> rw [h] <;> rfl
  calc x ||| 0xdc00
      = 2 ^ 10 * (x / 1024) ||| x % 1024 ||| 0xdc00 := by rw [← hsplit]
    _ = 2 ^ 10 * 55 ||| x % 1024 := by rw [Nat.or_assoc, Nat.or_comm (x % 1024), ← Nat.or_assoc, hhigh]
    _ = x % 1024 + 0xdc00 := by
      rw [← Nat.two_pow_add_eq_or_of_lt hlow]
      omega

theorem or_lead {x : ℕ} (h : x < 1024) : x ||| 0xd800 = x + 0xd800 := by
  have hadd : 0xd800 + x = 0xd800 ||| x := Nat.two_pow_add_eq_or_of_lt (show x < 2 ^ 10 from h) 54
  rw [Nat.or_comm, ← hadd, Nat.add_comm]

/-- A pair is decoded to its surrogates. -/
theorem codeUnits_pairChar {c d : UInt16} (hc : IsLead c) (hd : IsTrail d) :
    codeUnits (pairChar c d) = [c.toBitVec, d.toBitVec] := by
  obtain ⟨hval, hc₁, hc₂, hd₁, hd₂⟩ := toNat_pairChar hc hd
  have hsub : (pairChar c d - 0x10000).toNat =
      (c.toNat - 0xd800) * 1024 + (d.toNat - 0xdc00) := by
    rw [BitVec.toNat_sub, hval]
    change (4294967296 - 65536 + _) % 4294967296 = _
    omega
  unfold codeUnits
  rw [if_neg (by rw [BitVec.le_def, hval]; change ¬ 1114112 ≤ _; omega),
    if_pos (by rw [BitVec.le_def, hval]; change 65536 ≤ _; omega)]
  refine congrArg₂ _ (BitVec.eq_of_toNat_eq ?_) (congrArg (fun v => [v]) (BitVec.eq_of_toNat_eq ?_))
  · rw [BitVec.toNat_setWidth, BitVec.toNat_or, BitVec.toNat_and, BitVec.toNat_ushiftRight, hsub,
      Nat.shiftRight_eq_div_pow]
    change ((_ / 1024 &&& 2 ^ 10 - 1) ||| 0xd800) % 65536 = c.toNat
    rw [Nat.and_two_pow_sub_one_eq_mod, or_lead (Nat.mod_lt _ (by norm_num))]
    omega
  · rw [BitVec.toNat_setWidth, BitVec.toNat_or, BitVec.toNat_and, hsub]
    change ((_ &&& 2 ^ 11 - 1) ||| 0xdc00) % 65536 = d.toNat
    rw [Nat.and_two_pow_sub_one_eq_mod, or_trail _ (Nat.mod_lt _ (by norm_num))]
    omega

/-- A code unit on its own is decoded to itself. -/
theorem codeUnits_loneChar {c : UInt16} (hc : ¬ IsLead c) (hc' : ¬ IsTrail c) :
    codeUnits (loneChar c) = [c.toBitVec] := by
  have hlt := c.toNat_lt
  rw [loneChar, if_neg hc, if_neg hc', codeUnits,
    if_neg (by rw [BitVec.le_def, toNat_widen]; change ¬ 1114112 ≤ _; omega),
    if_neg (by rw [BitVec.le_def, toNat_widen]; change ¬ 65536 ≤ _; omega)]
  refine congrArg (fun v => [v]) (BitVec.eq_of_toNat_eq ?_)
  rw [BitVec.toNat_setWidth, toNat_widen]
  exact Nat.mod_eq_of_lt hlt

theorem codePoints_single {c : UInt16} (hc : ¬ IsLead c) (rest : Text) :
    codePoints (c :: rest) = loneChar c :: codePoints rest := by
  cases rest with
  | nil => rfl
  | cons d rest => rw [codePoints, if_neg fun h => hc h.1]

/-- The characters of a text are decoded to the text. -/
theorem flatMap_codePoints {s : Text} (h : WellFormedUtf16 s) :
    (codePoints s).flatMap codeUnits = s.map UInt16.toBitVec := by
  induction h with
  | nil => rfl
  | single hc hc' _ ih =>
    rw [codePoints_single hc, List.flatMap_cons, codeUnits_loneChar hc hc', ih]
    rfl
  | pair hc hd _ ih =>
    rw [codePoints, if_pos ⟨hc, hd⟩, List.flatMap_cons, codeUnits_pairChar hc hd, ih]
    rfl

theorem length_codeUnits (z : BitVec 32) :
    (codeUnits z).length = 1 + if z < 0x110000 ∧ 0x10000 ≤ z then 1 else 0 := by
  unfold codeUnits
  by_cases hlt : z < 0x110000
  · rw [if_neg (BitVec.not_le.mpr hlt)]
    split_ifs with hpair hcount hcount
    · rfl
    · exact absurd ⟨hlt, hpair⟩ hcount
    · exact absurd hcount.2 hpair
    · rfl
  · rw [if_pos (BitVec.not_lt.mp hlt), if_neg fun h => hlt h.1]
    rfl

/-- The length that is set before decoding is the one that is needed. -/
theorem length_flatMap_codeUnits (zs : List (BitVec 32)) :
    (zs.flatMap codeUnits).length =
      zs.length + zs.countP fun z => z < 0x110000 ∧ 0x10000 ≤ z := by
  induction zs with
  | nil => rfl
  | cons z zs ih =>
    rw [List.flatMap_cons, List.length_append, ih, List.length_cons, List.countP_cons,
      length_codeUnits]
    simp only [decide_eq_true_eq]
    omega

/-- A character takes two code units at most. -/
theorem length_le_codePoints (s : Text) : s.length ≤ 2 * (codePoints s).length := by
  fun_induction codePoints s with
  | case1 => exact le_rfl
  | case2 c => norm_num
  | case3 c d rest hpair ih =>
    simp only [List.length_cons]
    omega
  | case4 c d rest hpair ih =>
    simp only [List.length_cons] at ih ⊢
    omega

/-- All characters take two code units when they are surrogate pairs. -/
theorem length_codePoints {s : Text} (h : WellFormedUtf16 s) :
    2 * (codePoints s).length ≤ s.length ↔ ∀ c ∈ s, IsLead c ∨ IsTrail c := by
  induction h with
  | nil => exact iff_of_true le_rfl fun c hc => absurd hc List.not_mem_nil
  | @single c rest hc hc' _ ih =>
    have hle := length_le_codePoints rest
    rw [codePoints_single hc, List.length_cons, List.length_cons]
    refine iff_of_false (by omega) fun hall => ?_
    rcases hall _ List.mem_cons_self with h | h
    · exact hc h
    · exact hc' h
  | pair hc hd _ ih =>
    rw [codePoints, if_pos ⟨hc, hd⟩]
    simp only [List.length_cons, List.forall_mem_cons, hc, hd, true_or, or_true, true_and]
    refine Iff.trans ?_ ih
    omega

/-! ### Round trips -/

section RoundTrip

variable {fresh : Memory} {oBuffer : CBuffer} {s : Text}

@[simp] theorem SetLength_used (n : ℕ) : (oBuffer.SetLength fresh n).used = n := rfl

@[simp] theorem SetLength_inside (n : ℕ) : (oBuffer.SetLength fresh n).inside = oBuffer.inside := by
  change (oBuffer.ExpandToAtLeast fresh n).inside = oBuffer.inside
  unfold ExpandToAtLeast
  split <;> rfl

/-- A length that is already there keeps the buffer. -/
theorem SetLength_self {b : CBuffer} {n : ℕ} (h : b.used = n) : b.SetLength fresh n = b := by
  subst h
  have hfits : ¬ b.allocated < b.used := Nat.not_lt.mpr b.fits
  simp only [SetLength, ExpandToAtLeast, hfits, dif_neg, not_false_eq_true]

/-- UTF-32 is encoded when every character takes two code units. -/
theorem encodeUtf32le_eq (h : 2 * (codePoints s).length = s.length) :
    ∃ m, encodeUtf32le fresh oBuffer s =
        some ((oBuffer.SetLength fresh (s.length * 2)).withMemory m) ∧
      ∀ i v, (codePoints s)[i]? = some v → m.load 32 (4 * i) = v := by
  obtain ⟨m, hput, -, hload⟩ := @putAll_eq 32 (oBuffer.SetLength fresh (s.length * 2)) (by norm_num)
    (codePoints s) 0 (by
      change 4 * (0 + _) ≤ s.length * 2
      omega)
  refine ⟨m, ?_, fun i v hv => ?_⟩
  · unfold encodeUtf32le
    dsimp only
    rw [hput, Option.map_some]
    exact congrArg some (SetLength_self (by
      change s.length * 2 = _
      omega))
  · have hi := hload i v hv
    rw [Nat.zero_add] at hi
    exact hi

/-- UTF-32 that was encoded inside the length takes two code units for every character. -/
theorem encodeUtf32le_inside {b : CBuffer} (h : encodeUtf32le fresh oBuffer s = some b)
    (hinside : b.inside = true) : 2 * (codePoints s).length ≤ s.length := by
  obtain ⟨b', hput, rfl⟩ := Option.map_eq_some_iff.mp h
  rw [SetLength_inside] at hinside
  rcases putAll_inside hput hinside with hnil | hfits
  · rw [hnil]
    exact Nat.zero_le _
  · change 4 * (0 + _) ≤ s.length * 2 at hfits
    omega

/-- The values of a buffer are decoded inside the length that is set. -/
theorem decodeUtf32le_eq {data : CBuffer} {vs : List (BitVec 32)} (hs : vs.flatMap codeUnits =
    s.map UInt16.toBitVec) (hused : data.used = vs.length * 4)
    (hload : ∀ i v, vs[i]? = some v → data.memory.load 32 (4 * i) = v) :
    ∃ b, decodeUtf32le fresh oBuffer data = some (b, data) ∧ b.inside = oBuffer.inside ∧
      b.text = s := by
  have hread : ((List.range (data.used / 4)).map fun i => data.memory.load 32 (4 * i)) = vs := by
    rw [hused, Nat.mul_div_cancel _ (by norm_num)]
    exact map_load_eq hload
  have hcount := length_flatMap_codeUnits vs
  rw [hs, List.length_map] at hcount
  have hlen : (data.used / 4 + vs.countP fun z => z < 0x110000 ∧ 0x10000 ≤ z) * 2 =
      s.length * 2 := by
    rw [hused, Nat.mul_div_cancel _ (by norm_num), ← hcount]
  obtain ⟨m, hput, -, hunits⟩ := @putAll_eq 16 (oBuffer.SetLength fresh (s.length * 2)) (by norm_num)
    (s.map UInt16.toBitVec) 0 (by
      rw [List.length_map]
      change 2 * (0 + _) ≤ s.length * 2
      omega)
  refine ⟨(oBuffer.SetLength fresh (s.length * 2)).withMemory m, ?_, SetLength_inside _, ?_⟩
  · unfold decodeUtf32le
    dsimp only
    rw [hread, hlen, hs, hput]
    rfl
  · rw [CBuffer.text, show (withMemory _ m).used = s.length * 2 from rfl,
      Nat.mul_div_cancel _ (by norm_num)]
    refine List.ext_getElem (by simp) fun n hn hn' => ?_
    have hunit := hunits n s[n].toBitVec (by
      rw [List.getElem?_map, List.getElem?_eq_getElem hn']
      rfl)
    rw [Nat.zero_add] at hunit
    rw [List.getElem_map, List.getElem_range]
    exact UInt16.toBitVec_inj.mp hunit

end RoundTrip

theorem roundTrips_utf16le (s : Text) : RoundTrips .utf16le s := by
  intro fresh fresh' oBuffer oBuffer' hinside hinside'
  let b := oBuffer.SetLength fresh (s.length * 2)
  let encoded : CBuffer :=
    b.withMemory fun a => if a < s.length * 2 then textMemory s a else b.memory a
  have hencode : Encode fresh .utf16le oBuffer s = some encoded := by
    change b.copy (textMemory s) (s.length * 2) = _
    have hused : s.length * 2 ≤ b.used := le_rfl
    rw [copy, if_pos (hused.trans b.fits), decide_eq_true hused, Bool.and_true]
    rfl
  have hin : encoded.inside = true := (SetLength_inside _).trans hinside
  refine ⟨encoded, encoded, oBuffer', hencode, hin, rfl, hin, hinside', ?_⟩
  exact text_eq rfl fun a ha => if_pos ha

/-- The words are swapped twice. -/
theorem roundTrips_utf16be (s : Text) : RoundTrips .utf16be s := by
  intro fresh fresh' oBuffer oBuffer' hinside hinside'
  let b := oBuffer.SetLength fresh (s.length * 2)
  let encoded : CBuffer :=
    b.withMemory fun a => if a < s.length * 2 then textMemory s (flipWord a) else b.memory a
  have hencode : Encode fresh .utf16be oBuffer s = some encoded :=
    swapWords_eq (Nat.dvd_mul_left 2 _) le_rfl fun _ _ _ _ _ => rfl
  have hdecode : swapWords id encoded.used encoded = some (encoded.withMemory fun a =>
      if a < encoded.used then encoded.memory (flipWord a) else encoded.memory a) :=
    swapWords_eq (Nat.dvd_mul_left 2 _) le_rfl fun m x hm => hm
  have hin : encoded.inside = true := (SetLength_inside _).trans hinside
  refine ⟨encoded, _, oBuffer', hencode, hin, congrArg (Option.map _) hdecode, hin, hinside', ?_⟩
  refine text_eq rfl fun a (ha : a < s.length * 2) => ?_
  have hflip : flipWord a < s.length * 2 := by
    unfold flipWord
    split_ifs <;> omega
  change (if _ then if _ then _ else _ else _) = _
  rw [if_pos (show a < encoded.used from ha), if_pos hflip, flipWord_flipWord]

theorem roundTrips_utf32le {s : Text} (h : WellFormedUtf16 s)
    (hlen : 2 * (codePoints s).length = s.length) : RoundTrips .utf32le s := by
  intro fresh fresh' oBuffer oBuffer' hinside hinside'
  obtain ⟨m, hencode, hload⟩ := @encodeUtf32le_eq fresh oBuffer s hlen
  let encoded := (oBuffer.SetLength fresh (s.length * 2)).withMemory m
  have hused : encoded.used = (codePoints s).length * 4 := by
    change s.length * 2 = _
    omega
  have hin : encoded.inside = true := (SetLength_inside _).trans hinside
  obtain ⟨b, hdecode, hb, htext⟩ := @decodeUtf32le_eq fresh' oBuffer' s encoded (codePoints s)
    (flatMap_codePoints h) hused hload
  exact ⟨encoded, b, encoded, hencode, hin, hdecode, hb.trans hinside', hin, htext⟩

/-- The dwords are swapped twice. -/
theorem roundTrips_utf32be {s : Text} (h : WellFormedUtf16 s)
    (hlen : 2 * (codePoints s).length = s.length) : RoundTrips .utf32be s := by
  intro fresh fresh' oBuffer oBuffer' hinside hinside'
  obtain ⟨m, hencode, hload⟩ := @encodeUtf32le_eq fresh oBuffer s hlen
  let little := (oBuffer.SetLength fresh (s.length * 2)).withMemory m
  have hused : little.used = (codePoints s).length * 4 := by
    change s.length * 2 = _
    omega
  have hfour : 4 ∣ little.used := by
    rw [hused]
    exact Nat.dvd_mul_left 4 _
  let encoded := little.withMemory fun a =>
    if a < little.used then little.memory (flipDword a) else little.memory a
  let decoded := encoded.withMemory fun a =>
    if a < encoded.used then encoded.memory (flipDword a) else encoded.memory a
  have hswap : swapDwords little = some encoded := swapDwords_eq hfour
  have hswap' : swapDwords encoded = some decoded := swapDwords_eq hfour
  have hin : encoded.inside = true := (SetLength_inside _).trans hinside
  have hback : ∀ a < little.used, decoded.memory a = m a := by
    intro a ha
    have hflip : flipDword a < little.used := by
      unfold flipDword
      omega
    change (if _ then if _ then _ else _ else _) = _
    rw [if_pos (show a < encoded.used from ha), if_pos hflip, flipDword_flipDword]
    rfl
  have hload' : ∀ i v, (codePoints s)[i]? = some v → decoded.memory.load 32 (4 * i) = v := by
    intro i v hv
    obtain ⟨hi, -⟩ := List.getElem?_eq_some_iff.mp hv
    rw [← hload i v hv]
    exact load_congr fun k hk => hback _ (by omega)
  obtain ⟨b, hdecode, hb, htext⟩ := @decodeUtf32le_eq fresh' oBuffer' s decoded (codePoints s)
    (flatMap_codePoints h) hused hload'
  refine ⟨encoded, b, decoded, ?_, hin, ?_, hb.trans hinside', hin, htext⟩
  · rw [Encode, hencode]
    exact hswap
  · rw [Decode, hswap']
    exact hdecode

/-- **What a filter writes inside its length it decodes to the same text**: UTF-16 always, UTF-32 iff all
characters take two code units. -/
theorem roundTrips_iff (filter : Filter) {s : Text} (h : WellFormedUtf16 s) :
    RoundTrips filter s ↔
      (filter = .utf16le ∨ filter = .utf16be) ∨ ∀ c ∈ s, IsLead c ∨ IsTrail c := by
  rw [← length_codePoints h]
  have hle := length_le_codePoints s
  -- a UTF-32 filter that writes inside its length has room for all characters
  have hroom : ∀ filter, (filter = .utf32le ∨ filter = .utf32be) → RoundTrips filter s →
      2 * (codePoints s).length ≤ s.length := by
    intro filter hfilter hround
    obtain ⟨encoded, -, -, hencode, hinside, -⟩ := hround (fun _ => 0) (fun _ => 0) .empty .empty rfl
      rfl
    rcases hfilter with rfl | rfl
    · exact encodeUtf32le_inside hencode hinside
    · obtain ⟨little, hlittle, hswap⟩ := Option.bind_eq_some_iff.mp hencode
      have hused : little.used = (codePoints s).length * 4 := by
        obtain ⟨b, -, rfl⟩ := Option.map_eq_some_iff.mp hlittle
        rfl
      rw [swapDwords_eq (by rw [hused]; exact Nat.dvd_mul_left 4 _)] at hswap
      obtain rfl := Option.some.inj hswap
      exact encodeUtf32le_inside hlittle hinside
  cases filter with
  | utf16le => exact iff_of_true (roundTrips_utf16le s) (Or.inl (Or.inl rfl))
  | utf16be => exact iff_of_true (roundTrips_utf16be s) (Or.inl (Or.inr rfl))
  | utf32le =>
    rw [or_iff_right (by rintro (heq | heq) <;> exact nomatch heq)]
    exact ⟨hroom .utf32le (Or.inl rfl), fun hlen => roundTrips_utf32le h (by omega)⟩
  | utf32be =>
    rw [or_iff_right (by rintro (heq | heq) <;> exact nomatch heq)]
    exact ⟨hroom .utf32be (Or.inr rfl), fun hlen => roundTrips_utf32be h (by omega)⟩

/-- A pair of surrogates in UTF-32LE. -/
theorem roundTrips_pair : RoundTrips .utf32le [0xd83d, 0xde00] ↔
    ((Filter.utf32le = .utf16le ∨ Filter.utf32le = .utf16be) ∨
      ∀ c ∈ [(0xd83d : UInt16), 0xde00], IsLead c ∨ IsTrail c) :=
  roundTrips_iff .utf32le (.pair (by decide) (by decide) .nil)

/-- One letter takes four bytes in UTF-32, and a length of two is set. -/
theorem roundTrips_letter : ¬ ∀ filter s, WellFormedUtf16 s → RoundTrips filter s := by
  intro h
  obtain ⟨encoded, -, -, hencode, hinside, -⟩ := h .utf32le [0x61]
    (.single (by decide) (by decide) .nil) (fun _ => 0) (fun _ => 0) .empty .empty rfl rfl
  have hfits := @encodeUtf32le_inside (fun _ => 0) .empty [0x61] encoded hencode hinside
  exact absurd hfits (by decide)

end FileText

end TortoiseSvn.Merge
