import TortoiseSvn.Streams.HuffmanBounds
import TortoiseSvn.Streams.HuffmanCode

/-!
# Decoding what was encoded

The table of a block holds the values of its code in order and the lengths of their keys. The
decoder counts through the code and so finds the keys again (`keys_of_tiles`), and every twelve bits
that begin with a key lead to its value. The encoder writes the keys through a cache of 64 bits;
`codesOf` is the number that it writes in the end.

Main result: `decode_encode`. A block is decoded to its source if eight bytes can be read behind it,
since the decoder fetches ahead. An empty block is left with one byte of it unread.
-/

namespace TortoiseSvn.LogCache

open TortoiseSvn.Lib

/-! ### The table -/

section Table

open CHuffmanDecoder

variable {s : CHuffmanEncoder} {values source : List UInt8} {a : ℕ}

/-- The key that the decoder counts up to is the next one of the encoder. -/
theorem nextKey_of_tiles {e l e' l' : ℕ} {codes : List (ℕ × ℕ)}
    (h : Tiles 12 a (2 ^ 12) ((e, l) :: (e', l') :: codes)) : nextKey e l l' = e' := by
  have he := h.code_lt List.mem_cons_self
  have hl := h.length_le List.mem_cons_self
  have he' := h.code_lt (List.mem_cons_of_mem _ List.mem_cons_self)
  have hl' := h.length_le (List.mem_cons_of_mem _ List.mem_cons_self)
  have hpow : 2 ^ l ≤ 2 ^ 12 := Nat.pow_le_pow_right (by norm_num) hl
  have hpow' : 2 ^ l' ≤ 2 ^ 12 := Nat.pow_le_pow_right (by norm_num) hl'
  unfold nextKey
  rw [Nat.mod_eq_of_lt (show e + 1 < 2 ^ 16 by omega)]
  dsimp only
  split_ifs with hlt hgt
  · rw [Nat.shiftLeft_eq, ← h.next_of_le hlt.le, Nat.mod_eq_of_lt (by omega)]
  · rw [Nat.shiftRight_eq_div_pow, ← h.next_of_ge hgt.le]
  · have heq : l' - l = 0 := by omega
    have hnext := h.next_of_le (show l ≤ l' by omega)
    rw [heq, pow_zero, Nat.mul_one] at hnext
    exact hnext.symm

/-- A key is its code in reverse. -/
theorem reversed_code {v : UInt8} (h : s.key v < 2 ^ s.keyLength v) :
    reversed (s.keyLength v) (s.code v).1 = s.key v := by
  rw [CHuffmanEncoder.code, reversed_reversed, Nat.mod_eq_of_lt h]

/-- An entry of the decoder's table, with its length in four bits. -/
def entryOf (s : CHuffmanEncoder) (v : UInt8) : UInt8 × ℕ × Fin 16 :=
  (v, s.key v, Fin.ofNat 16 (s.keyLength v))

theorem reverseBits_code {v : UInt8} (hl : s.keyLength v ≤ 12)
    (h : s.key v < 2 ^ s.keyLength v) : reverseBits (s.code v).1 (s.keyLength v) = s.key v := by
  rw [CHuffmanEncoder.reverseBits_eq (by omega), reversed_code h]

theorem zip_keysFrom {lengths : List (Fin 16)} {more : List ℕ} {v : UInt8}
    (hlengths : lengths.map Fin.val = values.map s.keyLength ++ more)
    (hkey : ∀ w ∈ values, s.key w < 2 ^ s.keyLength w)
    (h : Tiles 12 a (2 ^ 12) (s.code v :: values.map s.code)) :
    values.zip ((keysFrom (s.code v).1 (s.code v).2 lengths).zip lengths) =
      values.map (entryOf s) := by
  induction values generalizing a v lengths with
  | nil => rfl
  | cons w values ih =>
    cases lengths with
    | nil => simp at hlengths
    | cons l lengths =>
      rw [List.map_cons, List.map_cons, List.cons_append] at hlengths
      injection hlengths with hl hlengths
      have hnext : nextKey (s.code v).1 (s.code v).2 l = (s.code w).1 := by
        rw [hl]
        exact nextKey_of_tiles h
      have hrest : Tiles 12 (((s.code v).1 + 1) * 2 ^ (12 - (s.code v).2)) (2 ^ 12)
          (s.code w :: values.map s.code) := h.tail
      have hle : s.keyLength w ≤ 12 := hrest.length_le List.mem_cons_self
      have hfin : l = Fin.ofNat 16 (s.keyLength w) := by
        apply Fin.ext
        rw [Fin.val_ofNat, ← hl, Nat.mod_eq_of_lt l.is_lt]
      have htail := ih hlengths (fun w hw => hkey w (List.mem_cons_of_mem _ hw)) hrest
      rw [keysFrom, hnext, hl, reverseBits_code hle (hkey w List.mem_cons_self), List.zip_cons_cons,
        List.zip_cons_cons, List.map_cons]
      change (w, s.key w, l) :: values.zip ((keysFrom (s.code w).1 (s.code w).2 lengths).zip
        lengths) = _
      rw [htail, hfin]
      rfl

/-- **The decoder finds the keys of the encoder from their lengths.** -/
theorem zip_keys {lengths : List (Fin 16)} {more : List ℕ}
    (hlengths : lengths.map Fin.val = values.map s.keyLength ++ more)
    (hkey : ∀ w ∈ values, s.key w < 2 ^ s.keyLength w)
    (h : Tiles 12 0 (2 ^ 12) (values.map s.code)) :
    values.zip ((keys lengths).zip lengths) = values.map (entryOf s) := by
  cases values with
  | nil => rfl
  | cons v values =>
    cases lengths with
    | nil => simp at hlengths
    | cons l lengths =>
      rw [List.map_cons, List.map_cons, List.cons_append] at hlengths
      injection hlengths with hl hlengths
      rw [List.map_cons] at h
      have hle : s.keyLength v ≤ 12 := h.length_le List.mem_cons_self
      have hzero : (s.code v).1 = 0 := by
        have hfirst : (s.code v).1 * 2 ^ (12 - s.keyLength v) = 0 := h.first_eq
        exact (Nat.mul_eq_zero.mp hfirst).resolve_right (by positivity)
      have htail := zip_keysFrom hlengths (fun w hw => hkey w (List.mem_cons_of_mem _ hw)) h
      have hzerokey : s.key v = 0 := by
        rw [← reversed_code (hkey v List.mem_cons_self), hzero, reversed_zero]
      have hfin : l = Fin.ofNat 16 (s.keyLength v) := by
        apply Fin.ext
        rw [Fin.val_ofNat, ← hl, Nat.mod_eq_of_lt l.is_lt]
      rw [hzero] at htail
      rw [keys, List.zip_cons_cons, List.zip_cons_cons, List.map_cons, hl]
      change (v, 0, l) :: values.zip ((keysFrom 0 (s.code v).2 lengths).zip lengths) = _
      rw [htail, hfin]
      simp only [entryOf, hzerokey]

theorem enter_entry {t : CHuffmanDecoder} {key k : ℕ} {l : Fin 16} (hkey : key < 2 ^ (l : ℕ))
    (hk : k < 2 ^ 12) (v : UInt8) :
    (t.enter key l v).entry k = if k % 2 ^ (l : ℕ) = key then some (v, l) else t.entry k := by
  have hiff : (key ≤ k ∧ k < 2 ^ 12 ∧ (k - key) % 2 ^ (l : ℕ) = 0) ↔ k % 2 ^ (l : ℕ) = key := by
    constructor
    · rintro ⟨hle, -, hmod⟩
      obtain ⟨q, hq⟩ := Nat.dvd_of_mod_eq_zero hmod
      rw [show k = key + 2 ^ (l : ℕ) * q by omega, Nat.add_mul_mod_self_left, Nat.mod_eq_of_lt hkey]
    · intro h
      have hle : key ≤ k := h ▸ Nat.mod_le _ _
      refine ⟨hle, hk, Nat.mod_eq_zero_of_dvd ?_⟩
      rw [← h]
      exact Nat.dvd_sub_mod k
  unfold enter
  dsimp only
  exact if_congr hiff rfl rfl

/-- The values of a table with their keys. -/
def enterAll (s : CHuffmanEncoder) (t : CHuffmanDecoder) (values : List UInt8) : CHuffmanDecoder :=
  (values.map (entryOf s)).foldl (fun t e => t.enter e.2.1 e.2.2 e.1) t

/-- The entry for some bits that end with the key of just one of the values. -/
theorem enterAll_entry {t : CHuffmanDecoder} {k : ℕ} {v : UInt8} (hnodup : values.Nodup)
    (hkey : ∀ w ∈ values, s.key w < 2 ^ s.keyLength w) (hlength : ∀ w ∈ values, s.keyLength w < 16)
    (hk : k < 2 ^ 12) (honly : ∀ w ∈ values, k % 2 ^ s.keyLength w = s.key w ↔ w = v) :
    (enterAll s t values).entry k =
      if v ∈ values then some (v, Fin.ofNat 16 (s.keyLength v)) else t.entry k := by
  induction values generalizing t with
  | nil => simp [enterAll]
  | cons w values ih =>
    obtain ⟨hnew, hnodup⟩ := List.nodup_cons.mp hnodup
    have hl : ((Fin.ofNat 16 (s.keyLength w) : Fin 16) : ℕ) = s.keyLength w :=
      Nat.mod_eq_of_lt (hlength w List.mem_cons_self)
    have hkeyw := hkey w List.mem_cons_self
    have hstep := enter_entry (t := t) (l := Fin.ofNat 16 (s.keyLength w)) (hl.symm ▸ hkeyw) hk w
    have hrest := ih (t := t.enter (s.key w) (Fin.ofNat 16 (s.keyLength w)) w) hnodup
      (fun u hu => hkey u (List.mem_cons_of_mem _ hu))
      (fun u hu => hlength u (List.mem_cons_of_mem _ hu))
      (fun u hu => honly u (List.mem_cons_of_mem _ hu))
    rw [hstep, hl] at hrest
    change (enterAll s (t.enter (s.key w) (Fin.ofNat 16 (s.keyLength w)) w) values).entry k = _
    rw [hrest]
    by_cases hv : v ∈ values
    · rw [if_pos hv, if_pos (List.mem_cons_of_mem _ hv)]
    · rw [if_neg hv]
      by_cases hw : w = v
      · rw [if_pos ((honly w List.mem_cons_self).mpr hw), if_pos (hw ▸ List.mem_cons_self), hw]
      · rw [if_neg fun h => hw ((honly w List.mem_cons_self).mp h), if_neg]
        intro h
        exact (List.mem_cons.mp h).elim (fun h => hw h.symm) hv

/-- Bits that begin with a key of the source begin with no other one. -/
theorem only_key (hs : s.Prepared source) {v : UInt8} (hv : v ∈ source) {k : ℕ}
    (hk : k % 2 ^ s.keyLength v = s.key v) (w : UInt8) (hw : w ∈ s.sorted) :
    k % 2 ^ s.keyLength w = s.key w ↔ w = v := by
  constructor
  · intro hkw
    by_contra hne
    have hsource := (hs.mem_sorted w).mp hw
    have hpair := List.pairwise_map.mp (hs.tiles (List.ne_nil_of_mem hv)).pairwise
    have : Std.Symm fun v w => ∀ x, x / 2 ^ (12 - (s.code v).2) = (s.code v).1 →
        x / 2 ^ (12 - (s.code w).2) ≠ (s.code w).1 := ⟨fun v w h x hx hx' => h x hx' hx⟩
    have hexcl := hpair.forall ((hs.mem_sorted v).mpr hv) hw (Ne.symm hne)
    have hbegins : ∀ u ∈ source, k % 2 ^ s.keyLength u = s.key u →
        reversed 12 k / 2 ^ (12 - (s.code u).2) = (s.code u).1 := by
      intro u hu hku
      have hlt : (s.code u).1 < 2 ^ s.keyLength u := reversed_lt _ _
      refine (mod_eq_reversed_iff (hs.keyLength_le u hu) hlt).mp ?_
      rw [hku, reversed_code (hs.key_lt u hu)]
    exact hexcl (reversed 12 k) (hbegins v hv hk) (hbegins w hsource hkw)
  · rintro rfl
    exact hk

/-- **Every twelve bits end with the key of exactly one byte of the source**, whatever the numbers of
the bytes are: no key is the end of another, none is longer than twelve bits, and no bits are
wasted. -/
theorem sortByFrequency_existsUnique_key (source : List UInt8) (hne : source ≠ [])
    (h : source.length < 2 ^ 31) :
    ∃ s, CHuffmanEncoder.sortByFrequency (CHuffmanEncoder.countValues source) = .ok s ∧
      (∀ v ∈ source, s.keyLength v ≤ 12) ∧
      ∀ k, ∃! v, v ∈ source ∧ k % 2 ^ s.keyLength v = s.key v := by
  obtain ⟨s, hrun, hs⟩ := CHuffmanEncoder.sortByFrequency_spec h
  refine ⟨s, hrun, hs.keyLength_le, ?_⟩
  intro k
  obtain ⟨c, hc, hbegins⟩ := (hs.tiles hne).exists_code (Nat.zero_le _) (reversed_lt 12 k)
  obtain ⟨v, hv, rfl⟩ := List.mem_map.mp hc
  have hsource := (hs.mem_sorted v).mp hv
  have hlt : (s.code v).1 < 2 ^ s.keyLength v := reversed_lt _ _
  have hkey : k % 2 ^ s.keyLength v = s.key v := by
    rw [(mod_eq_reversed_iff (hs.keyLength_le v hsource) hlt).mpr hbegins,
      reversed_code (hs.key_lt v hsource)]
  refine ⟨v, ⟨hsource, hkey⟩, ?_⟩
  rintro w ⟨hw, hkw⟩
  exact (only_key hs hsource hkey w ((hs.mem_sorted w).mpr hw)).mp hkw

theorem sortByFrequency_existsUnique_key_two :
    ∃ s, CHuffmanEncoder.sortByFrequency (CHuffmanEncoder.countValues [65, 66, 65]) = .ok s ∧
      (∀ v ∈ [65, 66, 65], s.keyLength v ≤ 12) ∧
      ∀ k, ∃! v, v ∈ [65, 66, 65] ∧ k % 2 ^ s.keyLength v = s.key v :=
  sortByFrequency_existsUnique_key [65, 66, 65] (by decide) (by decide)

theorem packedLengths_length (s : CHuffmanEncoder) (values : List UInt8) :
    (s.packedLengths values).length = (values.length + 1) / 2 := by
  fun_induction s.packedLengths values with
  | case1 => rfl
  | case2 v => simp
  | case3 v w values ih =>
    simp only [List.length_cons, ih]
    omega

theorem keyLengths_pack {a b : ℕ} (ha : a < 16) (hb : b < 16) :
    (keyLengths (UInt8.ofNat (a + b * 16))).map Fin.val = [a, b] := by
  have hbyte : (UInt8.ofNat (a + b * 16)).toNat = a + b * 16 := by
    rw [UInt8.toNat_ofNat']
    exact Nat.mod_eq_of_lt (by omega)
  simp only [keyLengths, List.map_cons, List.map_nil, hbyte]
  congr 1
  · omega
  · congr 1
    omega

/-- The lengths come out again, with one more behind an odd number of them. -/
theorem flatMap_packedLengths (hlength : ∀ w, s.keyLength w < 16) (values : List UInt8) :
    ∃ more, ((s.packedLengths values).flatMap keyLengths).map Fin.val =
      values.map s.keyLength ++ more := by
  fun_induction s.packedLengths values with
  | case1 => exact ⟨[], rfl⟩
  | case2 v =>
    refine ⟨[s.keyLength 0], ?_⟩
    rw [List.flatMap_singleton, keyLengths_pack (hlength v) (hlength 0)]
    rfl
  | case3 v w values ih =>
    obtain ⟨more, ih⟩ := ih
    refine ⟨more, ?_⟩
    rw [List.flatMap_cons, List.map_append, ih, keyLengths_pack (hlength v) (hlength w)]
    rfl

theorem entryCount_table {n : ℕ} (hpos : 0 < n) (hle : n ≤ 256) (rest : List UInt8) :
    entryCount (UInt8.ofNat n :: rest) = n := by
  unfold entryCount
  rcases Nat.lt_or_eq_of_le hle with hlt | rfl
  · have hbyte : (UInt8.ofNat n).toNat = n := by
      rw [UInt8.toNat_ofNat']
      exact Nat.mod_eq_of_lt hlt
    have hne : UInt8.ofNat n ≠ 0 := by
      intro h
      rw [h] at hbyte
      simp at hbyte
      omega
    simp [hne, hbyte]
  · rfl

/-- **Behind the table of the encoder the decoder has all of its values and keys.** -/
theorem withTable_huffmanTable (hs : s.Prepared source) (hne : source ≠ []) (t : CHuffmanDecoder)
    (rest : List UInt8) :
    t.withTable (s.huffmanTable ++ rest) = enterAll s t s.sorted ∧
      tableSize (s.huffmanTable ++ rest) = s.huffmanTable.length := by
  have hpos : 0 < s.sorted.length := by
    obtain ⟨v, hv⟩ := List.exists_mem_of_ne_nil _ hne
    exact List.length_pos_of_mem ((hs.mem_sorted v).mpr hv)
  have hcount : entryCount (s.huffmanTable ++ rest) = s.sorted.length :=
    entryCount_table hpos hs.length_le _
  have hlength : ∀ w, s.keyLength w < 16 := by
    intro w
    by_cases hw : w ∈ source
    · have := hs.keyLength_le w hw
      omega
    · rw [hs.unused w hw]
      norm_num
  constructor
  · obtain ⟨more, hmore⟩ := flatMap_packedLengths hlength s.sorted
    have hkeys := zip_keys hmore
      (fun w hw => hs.key_lt w ((hs.mem_sorted w).mp hw)) (hs.tiles hne)
    have hvalues : ((s.huffmanTable ++ rest).drop 1).take s.sorted.length = s.sorted := by
      rw [CHuffmanEncoder.huffmanTable, List.cons_append, List.cons_append, List.drop_one,
        List.tail_cons, List.append_assoc, List.take_left]
    have hlengths : ((s.huffmanTable ++ rest).drop (1 + s.sorted.length)).take
        ((s.sorted.length + 1) / 2) = s.packedLengths s.sorted := by
      rw [CHuffmanEncoder.huffmanTable, List.cons_append, List.cons_append, Nat.add_comm 1,
        List.drop_succ_cons, List.append_assoc, List.drop_left, ← packedLengths_length s s.sorted,
        List.take_left]
    rw [withTable, hcount, hvalues, hlengths, fillTable, hkeys]
    rfl
  · rw [tableSize, hcount, CHuffmanEncoder.huffmanTable, List.length_append, List.length_cons,
      packedLengths_length]
    omega

end Table

/-! ### Writing the keys -/

namespace CHuffmanEncoder

section Writing

variable {s : CHuffmanEncoder} {source done pending front : List UInt8} {size : ℕ} {c : BitCache}

/-- The keys of some bytes as one number, the first key at the bottom. -/
def codesOf (s : CHuffmanEncoder) : List UInt8 → ℕ
  | [] => 0
  | b :: source => s.key b + 2 ^ s.keyLength b * s.codesOf source

@[simp] theorem bitsOf_nil : s.bitsOf [] = 0 := rfl

@[simp] theorem bitsOf_cons (b : UInt8) (source : List UInt8) :
    s.bitsOf (b :: source) = s.keyLength b + s.bitsOf source := rfl

@[simp] theorem bitsOf_append (l r : List UInt8) : s.bitsOf (l ++ r) = s.bitsOf l + s.bitsOf r := by
  simp [bitsOf]

theorem codesOf_append (l r : List UInt8) :
    s.codesOf (l ++ r) = s.codesOf l + 2 ^ s.bitsOf l * s.codesOf r := by
  induction l with
  | nil => simp [codesOf]
  | cons b l ih =>
    rw [List.cons_append, codesOf, ih, codesOf, bitsOf_cons, pow_add]
    ring

theorem codesOf_lt (h : ∀ b ∈ source, s.key b < 2 ^ s.keyLength b) :
    s.codesOf source < 2 ^ s.bitsOf source := by
  induction source with
  | nil => simp [codesOf]
  | cons b source ih =>
    have hb := h b List.mem_cons_self
    have hrest := ih fun w hw => h w (List.mem_cons_of_mem _ hw)
    rw [codesOf, bitsOf_cons, pow_add]
    calc s.key b + 2 ^ s.keyLength b * s.codesOf source
        < 2 ^ s.keyLength b + 2 ^ s.keyLength b * s.codesOf source := by omega
      _ = 2 ^ s.keyLength b * (s.codesOf source + 1) := by ring
      _ ≤ 2 ^ s.keyLength b * 2 ^ s.bitsOf source := Nat.mul_le_mul_left _ hrest

theorem storeBytes_of_le {buffer bytes : List UInt8} {dest : ℕ}
    (h : dest + bytes.length ≤ buffer.length) : storeBytes buffer dest bytes =
      .ok (buffer.take dest ++ bytes ++ buffer.drop (dest + bytes.length)) := if_pos h

/-- What a store leaves of a buffer, seen from a place in front of it. -/
theorem drop_storeBytes {buffer bytes : List UInt8} {start q : ℕ}
    (h : start + q + bytes.length ≤ buffer.length) :
    (buffer.take (start + q) ++ bytes ++ buffer.drop (start + q + bytes.length)).drop start =
      (buffer.drop start).take q ++ bytes ++ buffer.drop (start + q + bytes.length) := by
  have hlen : (buffer.take start).length = start := by
    rw [List.length_take]
    omega
  rw [List.take_add]
  simp only [List.append_assoc]
  exact List.drop_left' hlen

theorem take_leBytes {v n : ℕ} (hv : v < 2 ^ 64) (hn : n ≤ 8) :
    leNat ((leBytes 8 v).take n) = v % 256 ^ n := by
  rw [← leNat_mod (by rw [leBytes_length]; exact hn), leNat_leBytes (by norm_num; exact hv)]

/-- Where the encoder is when it has written the keys of some bytes but for the last bits of them,
and has others in its cache. -/
structure Written (s : CHuffmanEncoder) (front : List UInt8) (size : ℕ)
    (done pending : List UInt8) (c : BitCache) : Prop where
  length : c.buffer.length = size
  front_eq : c.buffer.take front.length = front
  dest : c.dest = front.length + s.bitsOf done / 8
  bits : c.cachedBits = s.bitsOf done % 8 + s.bitsOf pending
  code : c.cachedCode = s.codesOf (done ++ pending) / 256 ^ (s.bitsOf done / 8)
  bytes : leNat ((c.buffer.drop front.length).take (s.bitsOf done / 8)) =
    s.codesOf done % 256 ^ (s.bitsOf done / 8)

theorem pow_256 (n : ℕ) : 256 ^ n = 2 ^ (8 * n) := by
  rw [pow_mul]
  norm_num

/-- A key goes into the cache. -/
theorem Written.cacheByte (h : Written s front size done pending c) {b : UInt8}
    (hkey : ∀ v ∈ done ++ pending ++ [b], s.key v < 2 ^ s.keyLength v)
    (hbits : s.bitsOf done % 8 + s.bitsOf (pending ++ [b]) < 64) :
    Written s front size done (pending ++ [b]) (s.cacheByte c b) := by
  refine ⟨h.length, h.front_eq, h.dest, ?_, ?_, h.bytes⟩
  · change (c.cachedBits + s.keyLength b) % 2 ^ 8 = _
    rw [bitsOf_append, bitsOf_cons, bitsOf_nil] at hbits ⊢
    rw [h.bits, Nat.mod_eq_of_lt (by omega)]
    omega
  · change (c.cachedCode + s.key b <<< c.cachedBits) % 2 ^ 64 = _
    have hsum : s.codesOf (done ++ (pending ++ [b])) / 256 ^ (s.bitsOf done / 8) =
        c.cachedCode + s.key b <<< c.cachedBits := by
      have hsplit : s.bitsOf (done ++ pending) = 8 * (s.bitsOf done / 8) + c.cachedBits := by
        rw [bitsOf_append, h.bits]
        omega
      rw [← List.append_assoc, codesOf_append, hsplit, h.code, pow_add, ← pow_256, Nat.shiftLeft_eq,
        codesOf, codesOf, Nat.mul_zero, Nat.add_zero, Nat.mul_assoc,
        Nat.add_mul_div_left _ _ (by positivity), Nat.mul_comm (s.key b)]
    have hlt : s.codesOf (done ++ (pending ++ [b])) / 256 ^ (s.bitsOf done / 8) < 2 ^ 64 := by
      apply Nat.div_lt_of_lt_mul
      rw [pow_256, ← pow_add]
      have hcodes := codesOf_lt (s := s) hkey
      rw [List.append_assoc] at hcodes
      apply hcodes.trans_le
      apply Nat.pow_le_pow_right (by norm_num)
      rw [bitsOf_append]
      omega
    rw [hsum] at hlt ⊢
    exact Nat.mod_eq_of_lt hlt

/-- The full bytes of the cache are written, and some more that are written again later. -/
theorem Written.flush (h : Written s front size done pending c)
    (hkey : ∀ v ∈ done ++ pending, s.key v < 2 ^ s.keyLength v)
    (hbits : s.bitsOf done % 8 + s.bitsOf pending < 64)
    (hroom : front.length + s.bitsOf done / 8 + 8 ≤ size) :
    ∃ c', c.flush = .ok c' ∧ Written s front size (done ++ pending) [] c' := by
  have hcode := h.code
  set q := s.bitsOf done / 8 with hq
  have hq' : s.bitsOf (done ++ pending) / 8 = q + c.cachedBits / 8 := by
    rw [bitsOf_append, h.bits]
    omega
  have hsmall : c.cachedBits / 8 ≤ 8 := by
    rw [h.bits]
    omega
  have hlt : c.cachedCode < 2 ^ 64 := by
    rw [hcode]
    apply Nat.div_lt_of_lt_mul
    rw [pow_256, ← pow_add]
    apply (codesOf_lt (s := s) hkey).trans_le
    apply Nat.pow_le_pow_right (by norm_num)
    rw [bitsOf_append]
    omega
  have hstore : c.dest + (leBytes 8 c.cachedCode).length ≤ c.buffer.length := by
    rw [leBytes_length, h.dest, h.length]
    exact hroom
  unfold BitCache.flush
  simp only [bind, Except.bind, storeBytes_of_le hstore]
  rw [if_neg (by rw [h.bits]; omega)]
  refine ⟨_, rfl, ?_, ?_, ?_, ?_, ?_, ?_⟩
  · simp only [List.length_append, List.length_take, List.length_drop]
    rw [← h.length]
    omega
  · dsimp only
    rw [List.append_assoc, h.dest, List.take_append_of_le_length, List.take_take, min_eq_left,
      h.front_eq]
    · omega
    · rw [List.length_take, h.length]
      omega
  · dsimp only
    rw [hq', h.dest]
    omega
  · dsimp only
    rw [bitsOf_nil, bitsOf_append, h.bits]
    omega
  · dsimp only
    rw [List.append_nil, hq', hcode, Nat.shiftRight_eq_div_pow, Nat.div_div_eq_div_mul, pow_add,
      pow_256 (c.cachedBits / 8), Nat.mul_comm 8]
  · dsimp only
    have hold : s.codesOf done % 256 ^ q = s.codesOf (done ++ pending) % 256 ^ q := by
      have hdvd : 256 ^ q ∣ 2 ^ s.bitsOf done := by
        rw [pow_256]
        exact pow_dvd_pow 2 (Nat.mul_div_le _ _)
      obtain ⟨k, hk⟩ := hdvd
      rw [codesOf_append, hk, Nat.mul_assoc, Nat.add_mul_mod_self_left]
    have hlen : ((c.buffer.drop front.length).take q).length = q := by
      rw [List.length_take, List.length_drop, h.length]
      omega
    rw [h.dest] at hstore ⊢
    rw [drop_storeBytes hstore, hq', List.append_assoc, List.take_append, hlen,
      Nat.add_sub_cancel_left, List.take_of_length_le
        (show ((c.buffer.drop front.length).take q).length ≤ q + c.cachedBits / 8 by omega),
      List.take_append_of_le_length (by rw [leBytes_length]; exact hsmall), leNat_append, hlen,
      h.bytes, take_leBytes hlt hsmall, hold, hcode, pow_add, Nat.mod_mul]

/-- The last bits are written. -/
theorem Written.finish (h : Written s front size done [] c)
    (hkey : ∀ v ∈ done, s.key v < 2 ^ s.keyLength v)
    (hroom : front.length + s.bitsOf done / 8 + 8 = size) :
    ∃ buffer, storeBytes c.buffer c.dest (leBytes 8 c.cachedCode) = .ok (front ++ buffer) ∧
      buffer.length = s.bitsOf done / 8 + 8 ∧ leNat buffer = s.codesOf done := by
  have hcode := h.code
  rw [List.append_nil] at hcode
  have hlt : c.cachedCode < 256 ^ 8 := by
    rw [hcode]
    apply Nat.div_lt_of_lt_mul
    rw [← pow_add, pow_256]
    apply (codesOf_lt (s := s) hkey).trans_le
    apply Nat.pow_le_pow_right (by norm_num)
    omega
  have hlen : ((c.buffer.drop front.length).take (s.bitsOf done / 8)).length =
      s.bitsOf done / 8 := by
    rw [List.length_take, List.length_drop, h.length]
    omega
  have hstore : c.dest + (leBytes 8 c.cachedCode).length ≤ c.buffer.length := by
    rw [leBytes_length, h.dest, h.length]
    omega
  refine ⟨(c.buffer.drop front.length).take (s.bitsOf done / 8) ++ leBytes 8 c.cachedCode,
    ?_, ?_, ?_⟩
  · rw [storeBytes_of_le hstore, leBytes_length, h.dest, List.take_add, h.front_eq,
      List.drop_of_length_le
        (show c.buffer.length ≤ front.length + s.bitsOf done / 8 + 8 by rw [h.length]; omega), List.append_nil, List.append_assoc]
  · rw [List.length_append, hlen, leBytes_length]
  · rw [leNat_append, hlen, h.bytes, leNat_leBytes hlt, hcode, Nat.mod_add_div]

theorem encodeOdd_spec (h : Written s front size done [] c)
    (hkey : ∀ v ∈ done ++ source, s.key v < 2 ^ s.keyLength v)
    (hlength : ∀ v ∈ source, s.keyLength v ≤ 12)
    (hroom : front.length + s.bitsOf (done ++ source) / 8 + 8 = size) :
    ∃ buffer, s.encodeOdd source c = .ok (front ++ buffer) ∧
      buffer.length = s.bitsOf (done ++ source) / 8 + 8 ∧
      leNat buffer = s.codesOf (done ++ source) := by
  induction source generalizing done c with
  | nil =>
    rw [List.append_nil] at hkey hroom ⊢
    exact h.finish hkey hroom
  | cons b source ih =>
    have hassoc : done ++ b :: source = done ++ [b] ++ source := by simp
    rw [hassoc] at hkey hroom ⊢
    have hb := hlength b List.mem_cons_self
    have hcached := h.cacheByte (b := b)
      (fun v hv => hkey v (by simp only [List.append_nil] at hv; exact List.mem_append_left _ hv))
      (by simp only [List.nil_append, bitsOf_cons, bitsOf_nil]; omega)
    rw [bitsOf_append, bitsOf_append] at hroom
    obtain ⟨c', hflush, hc'⟩ := hcached.flush
      (fun v hv => hkey v (List.mem_append_left _ (by simpa using hv)))
      (by simp only [List.nil_append, bitsOf_cons, bitsOf_nil]; omega) (by omega)
    rw [encodeOdd, hflush]
    exact ih hc' hkey (fun v hv => hlength v (List.mem_cons_of_mem _ hv))
      (by rw [bitsOf_append, bitsOf_append]; exact hroom)

/-- **The keys are written one behind the other, whatever the cache makes of them.** -/
theorem writeHuffmanEncoded_spec (h : Written s front size done [] c)
    (hkey : ∀ v ∈ done ++ source, s.key v < 2 ^ s.keyLength v)
    (hlength : ∀ v ∈ source, s.keyLength v ≤ 12)
    (hroom : front.length + s.bitsOf (done ++ source) / 8 + 8 = size) :
    ∃ buffer, s.writeHuffmanEncoded source c = .ok (front ++ buffer) ∧
      buffer.length = s.bitsOf (done ++ source) / 8 + 8 ∧
      leNat buffer = s.codesOf (done ++ source) := by
  fun_induction s.writeHuffmanEncoded source c generalizing done with
  | case1 b₀ b₁ b₂ b₃ source c ih =>
    have hassoc : done ++ b₀ :: b₁ :: b₂ :: b₃ :: source = done ++ [b₀, b₁, b₂, b₃] ++ source := by
      simp
    rw [hassoc] at hkey hroom ⊢
    have h₀ := hlength b₀ (by simp)
    have h₁ := hlength b₁ (by simp)
    have h₂ := hlength b₂ (by simp)
    have h₃ := hlength b₃ (by simp)
    have hmem : ∀ l : List UInt8, (∀ v ∈ l, v ∈ done ++ [b₀, b₁, b₂, b₃]) →
        ∀ v ∈ l, s.key v < 2 ^ s.keyLength v := by
      intro l hl v hv
      exact hkey v (List.mem_append_left _ (hl v hv))
    have c₀ := h.cacheByte (b := b₀) (hmem _ (by intro v hv; simp at hv ⊢; tauto)) (by simp; omega)
    have c₁ := c₀.cacheByte (b := b₁) (hmem _ (by intro v hv; simp at hv ⊢; tauto)) (by simp; omega)
    have c₂ := c₁.cacheByte (b := b₂) (hmem _ (by intro v hv; simp at hv ⊢; tauto)) (by simp; omega)
    have c₃ := c₂.cacheByte (b := b₃) (hmem _ (by intro v hv; simp at hv ⊢; tauto)) (by simp; omega)
    rw [bitsOf_append, bitsOf_append] at hroom
    obtain ⟨c', hflush, hc'⟩ := c₃.flush (hmem _ (by intro v hv; simp at hv ⊢; tauto)) (by simp; omega) (by omega)
    rw [hflush]
    exact ih c' hc' hkey (fun v hv => hlength v (by simp [hv]))
      (by rw [bitsOf_append, bitsOf_append]; exact hroom)
  | case2 source c _ => exact encodeOdd_spec h hkey hlength hroom

end Writing

end CHuffmanEncoder

/-! ### Reading the keys -/

section Reading

open CHuffmanEncoder CHuffmanDecoder

variable {s : CHuffmanEncoder} {source buffer : List UInt8}

theorem bitsOf_take_le (s : CHuffmanEncoder) (source : List UInt8) (j : ℕ) :
    s.bitsOf (source.take j) ≤ s.bitsOf source := by
  conv_rhs => rw [← List.take_append_drop j source, bitsOf_append]
  exact Nat.le_add_right _ _

theorem bitsOf_take_succ {j : ℕ} (hj : j < source.length) :
    s.bitsOf (source.take (j + 1)) = s.bitsOf (source.take j) + s.keyLength source[j] := by
  rw [← List.take_append_getElem hj, bitsOf_append, bitsOf_cons, bitsOf_nil, Nat.add_zero]

/-- The bits at the place of a byte end with its key, whatever stands behind the codes. -/
theorem window_codes (hs : s.Prepared source) {N X : ℕ}
    (hN : N = s.codesOf source + 256 ^ (s.bitsOf source / 8 + 8) * X) {j : ℕ}
    (hj : j < source.length) :
    window N (s.bitsOf (source.take j)) 12 % 2 ^ s.keyLength source[j] = s.key source[j] := by
  have hmem := List.getElem_mem hj
  have hle := hs.keyLength_le _ hmem
  have hbits := bitsOf_take_le s source (j + 1)
  rw [bitsOf_take_succ hj] at hbits
  set p := s.bitsOf (source.take j)
  set l := s.keyLength source[j]
  have hpow : ∃ Y, 256 ^ (s.bitsOf source / 8 + 8) = 2 ^ p * (2 ^ l * Y) := by
    refine ⟨2 ^ (8 * (s.bitsOf source / 8 + 8) - (p + l)), ?_⟩
    rw [pow_256, ← pow_add, ← pow_add]
    congr 1
    omega
  obtain ⟨Y, hY⟩ := hpow
  have hcodes : s.codesOf source = s.codesOf (source.take j) +
      2 ^ p * (s.key source[j] + 2 ^ l * s.codesOf (source.drop (j + 1))) := by
    conv_lhs => rw [← List.take_append_drop j source, codesOf_append,
      List.drop_eq_getElem_cons hj, codesOf]
  have hfront : s.codesOf (source.take j) < 2 ^ p :=
    codesOf_lt fun v hv => hs.key_lt v (List.mem_of_mem_take hv)
  have hshift : N / 2 ^ p = s.key source[j] + 2 ^ l * (s.codesOf (source.drop (j + 1)) + Y * X) := by
    have hsum : N = s.codesOf (source.take j) + 2 ^ p *
        (s.key source[j] + 2 ^ l * (s.codesOf (source.drop (j + 1)) + Y * X)) := by
      rw [hN, hcodes, hY]
      ring
    rw [hsum, Nat.add_mul_div_left _ _ (by positivity), Nat.div_eq_of_lt hfront, Nat.zero_add]
  rw [window_mod _ _ hle, window, Nat.shiftRight_eq_div_pow, hshift, Nat.add_mul_mod_self_left,
    Nat.mod_eq_of_lt (hs.key_lt _ hmem)]

/-- Each byte is found where its key was written. -/
theorem entryAt_of_bitPos (hs : s.Prepared source) (t : CHuffmanDecoder) {codes : List UInt8} {X : ℕ}
    (hN : leNat codes = s.codesOf source + 256 ^ (s.bitsOf source / 8 + 8) * X) {j : ℕ}
    (hj : j < source.length)
    (hpos : (enterAll s t s.sorted).bitPos codes j = s.bitsOf (source.take j)) :
    (enterAll s t s.sorted).entryAt codes j =
      some (source[j], Fin.ofNat 16 (s.keyLength source[j])) := by
  have hmem := List.getElem_mem hj
  have hkey := window_codes hs hN hj
  have hlt : window (leNat codes) (s.bitsOf (source.take j)) 12 < 2 ^ 12 :=
    Nat.mod_lt _ (by positivity)
  rw [entryAt, hpos, enterAll_entry hs.nodup
    (fun w hw => hs.key_lt w ((hs.mem_sorted w).mp hw)) _ hlt (only_key hs hmem hkey),
    if_pos ((hs.mem_sorted _).mpr hmem)]
  intro w hw
  have := hs.keyLength_le w ((hs.mem_sorted w).mp hw)
  omega

theorem bitPos_eq (hs : s.Prepared source) (t : CHuffmanDecoder) {codes : List UInt8} {X : ℕ}
    (hN : leNat codes = s.codesOf source + 256 ^ (s.bitsOf source / 8 + 8) * X) {j : ℕ}
    (hj : j ≤ source.length) :
    (enterAll s t s.sorted).bitPos codes j = s.bitsOf (source.take j) := by
  induction j with
  | zero => rfl
  | succ j ih =>
    have hpos := ih (by omega)
    have hle := hs.keyLength_le _ (List.getElem_mem (show j < source.length by omega))
    rw [bitPos_succ, CHuffmanDecoder.keyLength, entryAt_of_bitPos hs t hN (by omega) hpos, hpos,
      bitsOf_take_succ (by omega)]
    congr 1
    exact Nat.mod_eq_of_lt (by omega)

/-- The codes of a source are decoded from its keys, eight bytes behind them being there. -/
theorem writeDecodedStream_codes (hs : s.Prepared source) (t : CHuffmanDecoder)
    (hlen : buffer.length = s.bitsOf source / 8 + 8) (hN : leNat buffer = s.codesOf source)
    {tail : List UInt8} (htail : 8 ≤ tail.length) :
    (enterAll s t s.sorted).writeDecodedStream (buffer ++ tail) source.length = .ok source := by
  have hN' : leNat (buffer ++ tail) =
      s.codesOf source + 256 ^ (s.bitsOf source / 8 + 8) * leNat tail := by
    rw [leNat_append, hN, hlen]
  have hentry : ∀ {j : ℕ} (hj : j < source.length),
      (enterAll s t s.sorted).entryAt (buffer ++ tail) j =
        some (source[j], Fin.ofNat 16 (s.keyLength source[j])) := by
    intro j hj
    exact entryAt_of_bitPos hs t hN' hj (bitPos_eq hs t hN' hj.le)
  have hle : ∀ {j : ℕ} (_ : j < source.length),
      (enterAll s t s.sorted).keyLength (buffer ++ tail) j ≤ 12 := by
    intro j hj
    rw [CHuffmanDecoder.keyLength, hentry hj]
    exact (Nat.mod_le _ _).trans (hs.keyLength_le _ (List.getElem_mem hj))
  have hlength : (buffer ++ tail).length = s.bitsOf source / 8 + 8 + tail.length := by
    rw [List.length_append, hlen]
  have hin : (enterAll s t s.sorted).InBounds (buffer ++ tail) source.length := by
    refine ⟨by omega, ⟨?_, ?_, ?_⟩⟩
    · intro i hi
      have hbits := bitsOf_take_le s source (4 * (0 + i))
      rw [fetchPos, bitPos_eq hs t hN' (by omega)]
      omega
    · intro i hi
      have h₀ : (enterAll s t s.sorted).bitPos (buffer ++ tail) (4 * (0 + i) + 1) = _ :=
        bitPos_succ (4 * (0 + i))
      have h₁ : (enterAll s t s.sorted).bitPos (buffer ++ tail) (4 * (0 + i) + 2) = _ :=
        bitPos_succ (4 * (0 + i) + 1)
      have h₂ : (enterAll s t s.sorted).bitPos (buffer ++ tail) (4 * (0 + i) + 3) = _ :=
        bitPos_succ (4 * (0 + i) + 2)
      have h₃ : (enterAll s t s.sorted).bitPos (buffer ++ tail) (4 * (0 + i) + 4) = _ :=
        bitPos_succ (4 * (0 + i) + 3)
      have l₀ := hle (show 4 * (0 + i) < source.length by omega)
      have l₁ := hle (show 4 * (0 + i) + 1 < source.length by omega)
      have l₂ := hle (show 4 * (0 + i) + 2 < source.length by omega)
      have l₃ := hle (show 4 * (0 + i) + 3 < source.length by omega)
      rw [fetchPos]
      omega
    · intro i hi
      rw [hentry (by omega)]
      rfl
  rw [(writeDecodedStream_spec _ _ _).1 hin]
  congr 1
  apply List.ext_getElem (by simp)
  intro j hj hj'
  rw [List.getElem_map, List.getElem_range, symbol, hentry hj']
  rfl

end Reading

/-! ### One block -/

/-- Wherever the block stands, its source is decoded from it and nothing else is read from the
buffer, as long as eight more bytes can be fetched. -/
def Decodes (block source : List UInt8) : Prop :=
  ∀ (t : CHuffmanDecoder) (tail : List UInt8) (r : ℕ) (target : COutputBuffer),
    8 ≤ tail.length → r ≤ tail.length → source.length ≤ target.remaining →
    ∃ t', t.decode ⟨block ++ tail, block.length + r⟩ target =
      .ok (t', ⟨tail, r⟩, ⟨target.data ++ source, target.remaining - source.length⟩)

section Block

open CHuffmanEncoder CHuffmanDecoder

variable {source : List UInt8}

/-- The header of a block. -/
theorem decodedSizeOf_header {n m : ℕ} (hn : n < 2 ^ 32) (rest : List UInt8) :
    decodedSizeOf (leBytes 4 n ++ leBytes 4 m ++ rest) = n := by
  rw [decodedSizeOf, List.append_assoc, List.take_left' (leBytes_length 4 n),
    leNat_leBytes (by norm_num; exact hn)]

theorem encodedSizeOf_header {n m : ℕ} (hm : m < 2 ^ 32) (rest : List UInt8) :
    encodedSizeOf (leBytes 4 n ++ leBytes 4 m ++ rest) = m := by
  rw [encodedSizeOf, List.append_assoc, List.drop_left' (leBytes_length 4 n),
    List.take_left' (leBytes_length 4 m), leNat_leBytes (by norm_num; exact hm)]

theorem drop_header (n m : ℕ) (rest : List UInt8) :
    (leBytes 4 n ++ leBytes 4 m ++ rest).drop 8 = rest :=
  List.drop_left' (by rw [List.length_append, leBytes_length, leBytes_length])

theorem decodes_plain (hne : source ≠ []) (hlt : source.length + 9 < 2 ^ 32) :
    Decodes (leBytes 4 source.length ++ leBytes 4 (source.length + 9) ++ (0 :: source)) source := by
  intro t tail r target _ hr hroom
  have hlen : (leBytes 4 source.length ++ leBytes 4 (source.length + 9) ++ (0 :: source)).length =
      9 + source.length := by
    simp only [List.length_append, leBytes_length, List.length_cons]
    omega
  set bytes := leBytes 4 source.length ++ leBytes 4 (source.length + 9) ++ (0 :: source) ++ tail
    with hbytes
  rw [List.append_assoc] at hbytes
  have hdecoded : decodedSizeOf bytes = source.length := by
    rw [hbytes, decodedSizeOf_header (by omega)]
  have hencoded : encodedSizeOf bytes = source.length + 9 := by
    rw [hbytes, encodedSizeOf_header hlt]
  have hrest : bytes.drop 8 = 0 :: (source ++ tail) := by
    rw [hbytes, drop_header, List.cons_append]
  have hrest' : bytes.drop 9 = source ++ tail := by
    rw [show 9 = 8 + 1 from rfl, ← List.drop_drop, hrest]
    rfl
  have hlength : bytes.length = 9 + source.length + tail.length := by
    rw [hbytes, ← List.append_assoc, List.length_append, hlen]
  have hplain : PlainBlock bytes (9 + source.length + r) target.remaining := by
    refine ⟨?_, ⟨?_, ?_⟩, ?_, ?_⟩
    · rw [hdecoded]
      exact fun h => hne (List.eq_nil_of_length_eq_zero h)
    · rw [hencoded, hdecoded, Nat.mod_eq_of_lt hlt]
    · rw [show bytes[8]? = (bytes.drop 8).head? by rw [List.head?_drop], hrest]
      rfl
    · omega
    · rw [hdecoded]
      exact hroom
  refine ⟨t, ?_⟩
  rw [hlen, decode_plain (by omega) hplain, hdecoded, hrest', List.take_left,
    ← List.drop_drop, hrest', List.drop_left, Nat.add_sub_cancel_left]

theorem decodes_coded {s : CHuffmanEncoder} (hs : s.Prepared source) (hne : source ≠ [])
    (hlt : source.length < 2 ^ 32) {buffer : List UInt8}
    (hlen : buffer.length = s.bitsOf source / 8 + 8) (hN : leNat buffer = s.codesOf source)
    {targetSize : ℕ} (hsize : targetSize = 8 + s.huffmanTable.length + buffer.length)
    (hsmall : targetSize < source.length + 9) (hmax : source.length + 9 < 2 ^ 32) :
    Decodes (leBytes 4 source.length ++ leBytes 4 targetSize ++ (s.huffmanTable ++ buffer))
      source := by
  intro t tail r target htail hr hroom
  have hlength₀ : (leBytes 4 source.length ++ leBytes 4 targetSize ++
      (s.huffmanTable ++ buffer)).length = targetSize := by
    simp only [List.length_append, leBytes_length]
    omega
  set bytes := leBytes 4 source.length ++ leBytes 4 targetSize ++ (s.huffmanTable ++ buffer) ++ tail
    with hbytes
  have hlength : bytes.length = targetSize + tail.length := by
    rw [hbytes, List.length_append, hlength₀]
  rw [List.append_assoc] at hbytes
  have hdecoded : decodedSizeOf bytes = source.length := by
    rw [hbytes, decodedSizeOf_header hlt]
  have hencoded : encodedSizeOf bytes = targetSize := by
    rw [hbytes, encodedSizeOf_header (by omega)]
  have hrest : bytes.drop 8 = s.huffmanTable ++ (buffer ++ tail) := by
    rw [hbytes, drop_header, List.append_assoc]
  obtain ⟨htable, htsize⟩ := withTable_huffmanTable hs hne t (buffer ++ tail)
  have hheader : headerLen bytes = 8 + s.huffmanTable.length := by
    rw [headerLen, hrest, htsize]
  have hcodes : bytes.drop (headerLen bytes) = buffer ++ tail := by
    rw [hheader, ← List.drop_drop, hrest, List.drop_left]
  have hcoded : CodedBlock bytes (targetSize + r) target.remaining := by
    refine ⟨?_, ?_, ?_, ?_, ?_⟩
    · rw [hdecoded]
      exact fun h => hne (List.eq_nil_of_length_eq_zero h)
    · rintro ⟨hplain, -⟩
      rw [hencoded, hdecoded, Nat.mod_eq_of_lt hmax] at hplain
      omega
    · rw [hheader, hencoded]
      omega
    · rw [hencoded]
      exact Nat.le_add_right _ _
    · rw [hdecoded]
      exact hroom
  refine ⟨enterAll s t s.sorted, ?_⟩
  have hend : bytes.drop targetSize = tail := by
    rw [hsize, ← hheader, ← List.drop_drop, hcodes, List.drop_left]
  rw [hlength₀, decode_coded (by omega) hcoded, hrest, htable, hcodes, hdecoded, hencoded, hend,
    writeDecodedStream_codes hs t hlen hN htail, Nat.add_sub_cancel_left]
  rfl

/-- The size of a block with codes is found before it is written. -/
theorem Prepared.packedSize_eq {s : CHuffmanEncoder} (hs : s.Prepared source)
    (h : source.length < 2 ^ 31) :
    s.calculatePackedSize = 8 + s.huffmanTable.length + (s.bitsOf source / 8 + 8) := by
  have hbits : s.bitsOf source ≤ 12 * source.length := by
    have hsum := List.sum_le_card_nsmul (source.map s.keyLength) 12 (by
      intro n hn
      obtain ⟨v, hv, rfl⟩ := List.mem_map.mp hn
      exact hs.keyLength_le v hv)
    simpa [bitsOf, Nat.mul_comm] using hsum
  have htable : s.huffmanTable.length = 1 + (3 * s.sorted.length + 1) / 2 := by
    rw [huffmanTable, List.length_append, List.length_cons, packedLengths_length]
    omega
  have hlen := hs.length_le
  rw [calculatePackedSize, hs.totalBits_eq h, htable,
    Nat.mod_eq_of_lt (show s.bitsOf source / 8 + 8 < 2 ^ 32 by omega), Nat.mod_eq_of_lt (by omega)]

/-- A store behind what was stored before. -/
theorem storeBytes_behind (front : List UInt8) {rest bytes : List UInt8} (h : bytes.length ≤ rest.length) :
    storeBytes (front ++ rest) front.length bytes = .ok (front ++ bytes ++ rest.drop bytes.length) := by
  rw [storeBytes_of_le (by rw [List.length_append]; omega), List.take_left, List.drop_append,
    List.drop_of_length_le (Nat.le_add_right _ _), List.nil_append, Nat.add_sub_cancel_left]

/-- The empty block. -/
theorem encode_nil (memory : ℕ → UInt8) :
    CHuffmanEncoder.encode memory [] = .ok [0, 0, 0, 0, 9, 0, 0, 0, 0] := by
  obtain ⟨s, hrun, hs⟩ := sortByFrequency_spec (show ([] : List UInt8).length < 2 ^ 31 by norm_num)
  have hpacked := Prepared.packedSize_eq hs (by norm_num)
  unfold CHuffmanEncoder.encode
  simp only [bind, Except.bind]
  rw [if_neg (by norm_num), hrun]
  dsimp only
  have hsize : min ((([] : List UInt8).length + 9) % 2 ^ 32) s.calculatePackedSize = 9 := by
    rw [hpacked]
    simp
    omega
  rw [hsize]
  rfl

/-- A source with data is written and read. -/
theorem encode_spec {source : List UInt8} (memory : ℕ → UInt8) (hne : source ≠ [])
    (h : source.length < 2 ^ 31) :
    ∃ block, CHuffmanEncoder.encode memory source = .ok block ∧ Decodes block source ∧
      9 ≤ block.length ∧ block.length ≤ source.length + 9 := by
  obtain ⟨s, hrun, hs⟩ := sortByFrequency_spec h
  have hpacked := Prepared.packedSize_eq hs h
  unfold CHuffmanEncoder.encode
  simp only [bind, Except.bind]
  rw [if_neg (by omega), hrun]
  dsimp only
  rw [Nat.mod_eq_of_lt (show source.length + 9 < 2 ^ 32 by omega)]
  set size := min (source.length + 9) s.calculatePackedSize with hsize
  have hfresh : ((List.range size).map memory).length = size := by simp
  have hnine : 9 ≤ size := by omega
  generalize (List.range size).map memory = fresh at hfresh
  have hfirst := storeBytes_behind []
    (show (leBytes 4 source.length).length ≤ fresh.length by rw [leBytes_length]; omega)
  have hsecond := storeBytes_behind (leBytes 4 source.length)
    (show (leBytes 4 size).length ≤ (fresh.drop 4).length by
      rw [leBytes_length, List.length_drop]
      omega)
  rw [List.nil_append, List.nil_append, List.length_nil, leBytes_length] at hfirst
  rw [leBytes_length, leBytes_length, List.drop_drop] at hsecond
  rw [hfirst]
  dsimp only
  rw [hsecond]
  dsimp only
  have hheader : (leBytes 4 source.length ++ leBytes 4 size).length = 8 := by
    rw [List.length_append, leBytes_length, leBytes_length]
  by_cases hplain : source.length + 9 = size
  · -- "no compression possible"
    rw [if_pos hplain]
    have hthird := storeBytes_behind (leBytes 4 source.length ++ leBytes 4 size)
      (show [(0 : UInt8)].length ≤ (fresh.drop 8).length by
        rw [List.length_singleton, List.length_drop]
        omega)
    have hfourth : storeBytes (leBytes 4 source.length ++ leBytes 4 size ++ [0] ++ fresh.drop (8 + 1)) 9
        source = .ok (leBytes 4 source.length ++ leBytes 4 size ++ (0 :: source)) := by
      have hrun := storeBytes_behind (leBytes 4 source.length ++ leBytes 4 size ++ [0])
        (show source.length ≤ (fresh.drop (8 + 1)).length by rw [List.length_drop]; omega)
      rw [List.length_append, hheader, List.length_singleton, List.drop_drop,
        List.drop_of_length_le (show fresh.length ≤ 8 + 1 + source.length by omega),
        List.append_nil, List.append_assoc _ [0] source, List.singleton_append] at hrun
      exact hrun
    rw [hheader, List.drop_drop, List.length_singleton] at hthird
    rw [hthird]
    dsimp only
    refine ⟨_, hfourth, ?_, ?_, ?_⟩
    · rw [← hplain]
      exact decodes_plain hne (by omega)
    · rw [List.length_append, hheader, List.length_cons]
      omega
    · rw [List.length_append, hheader, List.length_cons]
      omega
  · rw [if_neg hplain]
    have hcoded : size = 8 + s.huffmanTable.length + (s.bitsOf source / 8 + 8) := by omega
    have hthird := storeBytes_behind (leBytes 4 source.length ++ leBytes 4 size)
      (show s.huffmanTable.length ≤ (fresh.drop 8).length by rw [List.length_drop]; omega)
    rw [hheader, List.drop_drop] at hthird
    rw [hthird]
    dsimp only
    have hfront : (leBytes 4 source.length ++ leBytes 4 size ++ s.huffmanTable).length =
        8 + s.huffmanTable.length := by
      rw [List.length_append, hheader]
    have hwritten : Written s (leBytes 4 source.length ++ leBytes 4 size ++ s.huffmanTable) size [] []
        ⟨leBytes 4 source.length ++ leBytes 4 size ++ s.huffmanTable ++
          fresh.drop (8 + s.huffmanTable.length), 8 + s.huffmanTable.length, 0, 0⟩ := by
      refine ⟨?_, ?_, ?_, rfl, ?_, ?_⟩
      · rw [List.length_append, hfront, List.length_drop]
        omega
      · exact List.take_left
      · rw [bitsOf_nil, Nat.zero_div, Nat.add_zero, hfront]
      · simp [codesOf]
      · simp [codesOf]
    obtain ⟨buffer, hwrite, hlen, hN⟩ := writeHuffmanEncoded_spec hwritten
      (fun v hv => hs.key_lt v hv) (fun v hv => hs.keyLength_le v hv)
      (by rw [hfront, List.nil_append]; omega)
    rw [List.nil_append] at hlen hN
    refine ⟨_, hwrite, ?_, ?_, ?_⟩
    · rw [List.append_assoc _ s.huffmanTable]
      exact decodes_coded hs hne (by omega) hlen hN (by omega) (by omega) (by omega)
    · rw [List.length_append, hfront]
      omega
    · rw [List.length_append, hfront]
      omega

/-- **What was encoded is decoded**, for every source of less than `2 ^ 31` bytes and whatever was in
the memory of the block before, with any decoder that was used before and into any target with room
for it, if eight bytes can be fetched behind the block. The block is read to its end, unless it is
empty: then its last byte is left. -/
theorem decode_encode (memory : ℕ → UInt8) (source : List UInt8) (h : source.length < 2 ^ 31) :
    ∃ block, CHuffmanEncoder.encode memory source = .ok block ∧
      block.length ≤ source.length + 9 ∧
      ∀ (t : CHuffmanDecoder) (tail : List UInt8) (r : ℕ) (target : COutputBuffer),
        8 ≤ tail.length → r ≤ tail.length → source.length ≤ target.remaining →
        ∃ t', t.decode ⟨block ++ tail, block.length + r⟩ target =
          .ok (t', if source = [] then ⟨0 :: tail, r + 1⟩ else ⟨tail, r⟩,
            ⟨target.data ++ source, target.remaining - source.length⟩) := by
  by_cases hne : source = []
  · subst hne
    refine ⟨_, encode_nil memory, by simp, ?_⟩
    intro t tail r target htail hr hroom
    refine ⟨t, ?_⟩
    rw [decode_empty (by simp; omega) ⟨rfl, by simp; omega⟩]
    simp
    omega
  · obtain ⟨block, hrun, hdecodes, -, hle⟩ := encode_spec memory hne h
    refine ⟨block, hrun, hle, ?_⟩
    simp only [if_neg hne]
    exact hdecodes

/-- A block of three equal bytes, which have no bits at all. -/
theorem decode_encode_three :
    ∃ block, CHuffmanEncoder.encode (fun _ => 7) [65, 65, 65] = .ok block ∧
      ∃ t', CHuffmanDecoder.decode {} ⟨block ++ [1, 2, 3, 4, 5, 6, 7, 8], block.length + 8⟩ ⟨[], 3⟩ =
        .ok (t', ⟨[1, 2, 3, 4, 5, 6, 7, 8], 8⟩, ⟨[65, 65, 65], 0⟩) := by
  obtain ⟨block, hrun, -, hdecode⟩ := decode_encode (fun _ => 7) [65, 65, 65] (by decide)
  exact ⟨block, hrun, hdecode {} [1, 2, 3, 4, 5, 6, 7, 8] 8 ⟨[], 3⟩ (by decide) (by decide)
    (by decide)⟩

end Block

end TortoiseSvn.LogCache
