import Lush.Ints
import Lush.Library.OpenAddressing

/-!
# Interning the strings of a column

`_dt_str_ctx_intern` looks for a string in a hash table with open addressing.  The
entries of the table point into the share that the column has in a buffer of strings,
where each string is followed by a zero byte; a string that is not found is put after the
others, unless there is no room for it.  The table is never full, because its size is
doubled as soon as more than 70 % of it are in use.  A context stands for the list of the
strings that are in it (`Represents`).
-/

namespace Lush.Csv

open OpenAddressing

/-- A string of a column. -/
abbrev Text := List UInt8

/-- A result that is a nonnegative `int`. -/
def nonnegInt (n : ℕ) : Except Fault ℕ :=
  if n ≤ 2147483647 then .ok n else .error .undefined

/-- `memcpy`. -/
def copyBytes (buf : List UInt8) (pos : ℕ) (bytes : List UInt8) : Except Fault (List UInt8) :=
  if pos + bytes.length ≤ buf.length then
    .ok (buf.take pos ++ bytes ++ buf.drop (pos + bytes.length))
  else .error .undefined

/-- `a[i] = v`. -/
def storeAt {α : Type} (a : List α) (i : ℕ) (v : α) : Except Fault (List α) :=
  if i < a.length then .ok (a.set i v) else .error .undefined

/-- `_dt_hash`. -/
def dtHash (s : Text) : UInt32 :=
  s.foldl (fun h c => ((h <<< 5) + h) ^^^ c.toUInt32) 5381

/-- An entry of the table: its hash value and its code, and where its key is in the share
of the column. -/
structure Slot where
  hash : UInt32
  code : ℕ
  key : ℕ
  keyLen : ℕ

/-- `_dt_str_ctx`.  The slots where `ht_codes` is `-1` are empty. -/
structure StrCtx where
  table : Table Slot
  htSize : ℕ
  htMask : ℕ
  uniqueBuf : List UInt8
  bufPos : ℕ
  bufSize : ℕ
  uniqueOffsets : List ℕ
  maxUnique : ℕ
  nextCode : ℕ
  htCount : ℕ

namespace StrCtx

/-- `_dt_str_ctx_init`. -/
def init (uniqueBuf : List UInt8) (bufSize : ℕ) (uniqueOffsets : List ℕ) (maxUnique : ℕ) :
    StrCtx where
  table := empty
  htSize := 8192
  htMask := 8192 - 1
  uniqueBuf := uniqueBuf
  bufPos := 0
  bufSize := bufSize
  uniqueOffsets := uniqueOffsets
  maxUnique := maxUnique
  nextCode := 0
  htCount := 0

/-- The slot of the probe `p`. -/
def slot (mask : ℕ) (h : UInt32) (p : ℕ) : ℕ := ((h.toNat &&& mask) + p) &&& mask

/-- `_dt_str_ctx_rehash`. -/
def rehash (ctx : StrCtx) : StrCtx :=
  let newSize := ctx.htSize * 2
  let newMask := newSize - 1
  { ctx with
    table := OpenAddressing.rehash (fun e => slot newMask e.hash) newSize ctx.table ctx.htSize
    htSize := newSize
    htMask := newMask }

/-- The comparison of an entry with a key. -/
def isKey (ctx : StrCtx) (h : UInt32) (key : Text) (e : Slot) : Bool :=
  decide (e.hash = h ∧ e.keyLen = key.length ∧
    (ctx.uniqueBuf.drop e.key).take key.length = key)

/-- A key is put in the share and in the empty slot `idx`. -/
def insert (ctx : StrCtx) (h : UInt32) (key : Text) (idx : ℕ) : Except Fault StrCtx := do
  let buf ← copyBytes ctx.uniqueBuf ctx.bufPos key
  let buf ← copyBytes buf (ctx.bufPos + key.length) [0]
  let offsets ← storeAt ctx.uniqueOffsets ctx.nextCode ctx.bufPos
  .ok { ctx with
    table := Function.update ctx.table idx (some ⟨h, ctx.nextCode, ctx.bufPos, key.length⟩)
    uniqueBuf := buf
    bufPos := ctx.bufPos + (key.length + 1)
    uniqueOffsets := offsets
    nextCode := ctx.nextCode + 1
    htCount := ctx.htCount + 1 }

/-- `_dt_str_ctx_intern`; there is no code when it returns `-1`. -/
def intern (ctx : StrCtx) (key : Text) : Except Fault (StrCtx × Option ℕ) :=
  let h := dtHash key
  match probe ctx.table (ctx.isKey h key) (slot ctx.htMask h) ctx.htSize 0 with
  | none => .ok (ctx, none)
  | some idx =>
      match ctx.table idx with
      | some e => .ok (ctx, some e.code)
      | none =>
          if ctx.maxUnique ≤ ctx.nextCode then .ok (ctx, none)
          else do
            let stop ← nonnegInt (ctx.bufPos + key.length + 1)
            if ctx.bufSize < stop then .ok (ctx, none)
            else do
              let new ← ctx.insert h key idx
              .ok (if new.htSize * 7 < new.htCount * 10 then new.rehash else new,
                some ctx.nextCode)

end StrCtx

/-! ## Pools -/

/-- The strings of a pool, each with a zero byte. -/
def layout (pool : List Text) : List UInt8 := pool.flatMap fun t => t ++ [0]

/-- Where a string of the pool starts. -/
def place (pool : List Text) (c : ℕ) : ℕ := (layout (pool.take c)).length

/-- The code of a string, which is put in the pool when it is new and there is room for it. -/
def enter (maxUnique bufSize : ℕ) (pool : List Text) (t : Text) : List Text × Option ℕ :=
  if t ∈ pool then (pool, some (pool.idxOf t))
  else if pool.length < maxUnique ∧ (layout (pool ++ [t])).length ≤ bufSize then
    (pool ++ [t], some pool.length)
  else (pool, none)

/-- The entry of a string. -/
def entry (pool : List Text) (c : ℕ) (t : Text) : Slot := ⟨dtHash t, c, place pool c, t.length⟩

variable {maxUnique bufSize : ℕ} {ctx ctx' : StrCtx} {pool : List Text} {key t : Text} {c : ℕ}

@[simp] theorem layout_append (pool pool' : List Text) :
    layout (pool ++ pool') = layout pool ++ layout pool' :=
  List.flatMap_append

@[simp] theorem layout_singleton (t : Text) : layout [t] = t ++ [0] := by
  simp [layout]

/-- A string of the pool is where it starts. -/
theorem layout_eq (hc : pool[c]? = some t) :
    layout pool = layout (pool.take c) ++ t ++ [0] ++ layout (pool.drop (c + 1)) := by
  obtain ⟨hlt, ht⟩ := List.getElem?_eq_some_iff.mp hc
  conv_lhs => rw [← List.take_append_drop c pool, List.drop_eq_getElem_cons hlt, ht]
  rw [layout_append, ← List.singleton_append, layout_append, layout_singleton]
  simp only [List.append_assoc]

theorem place_append (hc : c ≤ pool.length) (pool' : List Text) :
    place (pool ++ pool') c = place pool c := by
  rw [place, List.take_append_of_le_length hc, ← place]

theorem place_length (pool : List Text) : place pool pool.length = (layout pool).length := by
  rw [place, List.take_length]

/-! ## What a context stands for -/

/-- The strings of the pool are in the share of the column and in the table. -/
structure Stored (maxUnique bufSize : ℕ) (ctx : StrCtx) (pool : List Text) : Prop where
  bufLimit : ctx.bufSize = bufSize
  uniqueLimit : ctx.maxUnique = maxUnique
  share : ctx.uniqueBuf.length = bufSize
  places : ctx.uniqueOffsets.length = maxUnique
  size : ∃ k, ctx.htSize = 2 ^ k
  large : 8192 ≤ ctx.htSize
  mask : ctx.htMask = ctx.htSize - 1
  nodup : pool.Nodup
  nextCode : ctx.nextCode = pool.length
  htCount : ctx.htCount = pool.length
  bufPos : ctx.bufPos = (layout pool).length
  buf : layout pool <+: ctx.uniqueBuf
  offsets : ∀ c < pool.length, ctx.uniqueOffsets[c]? = some (place pool c)
  length_le : pool.length ≤ maxUnique
  placed : Placed (fun e => e.hash.toNat) ctx.htSize ctx.table
  occupied : occupied ctx.htSize ctx.table = pool.length
  mem : ∀ e, (∃ i, ctx.table i = some e) ↔ ∃ t, pool[e.code]? = some t ∧ e = entry pool e.code t

/-- A context has the strings of the pool, and its table is not too full. -/
structure Represents (maxUnique bufSize : ℕ) (ctx : StrCtx) (pool : List Text) : Prop extends
    Stored maxUnique bufSize ctx pool where
  load : pool.length * 10 ≤ ctx.htSize * 7

theorem slot_eq {k mask : ℕ} (hmask : mask = 2 ^ k - 1) (h : UInt32) (p : ℕ) :
    StrCtx.slot mask h p = (h.toNat + p) % 2 ^ k := by
  rw [StrCtx.slot, hmask, Nat.and_two_pow_sub_one_eq_mod, Nat.and_two_pow_sub_one_eq_mod,
    Nat.mod_add_mod]

theorem Stored.slot (h : Stored maxUnique bufSize ctx pool) (hash : UInt32) :
    StrCtx.slot ctx.htMask hash = fun p => (hash.toNat + p) % ctx.htSize := by
  obtain ⟨k, hk⟩ := h.size
  funext p
  rw [slot_eq (h.mask.trans (by rw [hk])), hk]

theorem Represents.exists_empty (h : Represents maxUnique bufSize ctx pool) :
    ∃ i < ctx.htSize, ctx.table i = none := by
  apply OpenAddressing.exists_empty
  have hload := h.load
  have hlarge := h.large
  rw [h.occupied]
  omega

theorem Stored.layout_le (h : Stored maxUnique bufSize ctx pool) :
    (layout pool).length ≤ bufSize :=
  h.share ▸ h.buf.length_le

/-- An entry passes the comparison if and only if it is the one of the key. -/
theorem Stored.isKey_iff (h : Stored maxUnique bufSize ctx pool) {e : Slot} {i : ℕ}
    (hi : ctx.table i = some e) :
    ctx.isKey (dtHash key) key e = true ↔ pool[e.code]? = some key := by
  obtain ⟨t, ht, he⟩ := (h.mem e).mp ⟨i, hi⟩
  obtain ⟨rest, hrest⟩ := h.buf
  have hbytes : (ctx.uniqueBuf.drop (place pool e.code)).take t.length = t := by
    rw [← hrest, layout_eq ht, place]
    simp only [List.append_assoc, List.drop_left, List.take_left]
  have hcode : e.code = (entry pool e.code t).code := rfl
  rw [ht]
  constructor
  · intro htest
    rw [StrCtx.isKey, he] at htest
    obtain ⟨-, hlen, hkey⟩ := of_decide_eq_true htest
    rw [entry, ← show t.length = key.length from hlen, hbytes] at hkey
    rw [hkey]
  · intro heq
    obtain rfl := Option.some.inj heq
    rw [StrCtx.isKey, he]
    simp [entry, hbytes]

/-! ## Interning -/

theorem getElem?_idxOf (hkey : key ∈ pool) : pool[pool.idxOf key]? = some key := by
  rw [List.getElem?_eq_getElem (List.idxOf_lt_length_of_mem hkey), List.getElem_idxOf]

/-- A string of the pool is found. -/
theorem Stored.intern_mem (h : Stored maxUnique bufSize ctx pool) (hkey : key ∈ pool) :
    ctx.intern key = .ok (ctx, some (pool.idxOf key)) := by
  set c := pool.idxOf key with hc
  have hget : pool[c]? = some key := getElem?_idxOf hkey
  obtain ⟨i, hi⟩ := (h.mem (entry pool c key)).mpr ⟨key, hget, rfl⟩
  have htest : ctx.isKey (dtHash key) key (entry pool c key) = true := (h.isKey_iff hi).mpr hget
  obtain ⟨i', e', hprobe, hi', htest'⟩ := h.placed.probe_mem hi htest
  have hcode : e'.code = c := by
    have hsame := (h.isKey_iff hi').mp htest'
    obtain ⟨hlt, heq⟩ := List.getElem?_eq_some_iff.mp hsame
    rw [hc, ← heq, h.nodup.idxOf_getElem]
  rw [StrCtx.intern, h.slot (dtHash key)]
  change probe ctx.table (ctx.isKey (dtHash key) key)
    (fun p => ((dtHash key).toNat + p) % ctx.htSize) ctx.htSize 0 = some i' at hprobe
  rw [hprobe]
  simp only [hi', hcode]

/-- A string that is not in the pool is in no entry. -/
theorem Stored.isKey_eq_false (h : Stored maxUnique bufSize ctx pool) (hkey : key ∉ pool) (i : ℕ)
    (e : Slot) (hi : ctx.table i = some e) : ctx.isKey (dtHash key) key e = false := by
  refine Bool.eq_false_iff.mpr fun htest => hkey ?_
  exact List.mem_of_getElem? ((h.isKey_iff hi).mp htest)

/-- The entries keep their places when a string is added. -/
theorem entry_append (hc : c ≤ pool.length) (t t' : Text) :
    entry (pool ++ [t']) c t = entry pool c t := by
  rw [entry, entry, place_append hc]

/-- A string is written after the others. -/
theorem Stored.write (h : Stored maxUnique bufSize ctx pool)
    (hfits : (layout (pool ++ [key])).length ≤ bufSize) :
    ∃ buf buf', copyBytes ctx.uniqueBuf ctx.bufPos key = .ok buf ∧
      copyBytes buf (ctx.bufPos + key.length) [0] = .ok buf' ∧ buf'.length = bufSize ∧
      layout (pool ++ [key]) <+: buf' := by
  obtain ⟨rest, hrest⟩ := h.buf
  have hshare := h.share
  have hpos := h.bufPos
  simp only [layout_append, layout_singleton, List.length_append, List.length_singleton] at hfits
  have htake : ctx.uniqueBuf.take ctx.bufPos = layout pool := by
    rw [hpos, ← hrest, List.take_left]
  have hlen : (layout pool ++ key).length = ctx.bufPos + key.length := by
    rw [List.length_append, hpos]
  refine ⟨layout pool ++ key ++ ctx.uniqueBuf.drop (ctx.bufPos + key.length),
    layout pool ++ key ++ [0] ++ ctx.uniqueBuf.drop (ctx.bufPos + key.length + 1), ?_, ?_, ?_, ?_⟩
  · rw [copyBytes, if_pos (by omega), htake]
  · rw [copyBytes, if_pos (by simp; omega), ← hlen, List.take_left, List.length_singleton,
      ← List.drop_drop, List.drop_left, List.drop_drop]
  · simp only [List.length_append, List.length_drop, List.length_singleton]
    omega
  · rw [layout_append, layout_singleton, ← List.append_assoc]
    exact List.prefix_append _ _

/-- The context has one string more. -/
theorem Stored.insert (h : Stored maxUnique bufSize ctx pool) (hkey : key ∉ pool)
    (hunique : pool.length < maxUnique) (hfits : (layout (pool ++ [key])).length ≤ bufSize)
    {d : ℕ} (hd : d < ctx.htSize)
    (hnone : ctx.table (((dtHash key).toNat + d) % ctx.htSize) = none)
    (hbefore : ∀ j < d, ctx.table (((dtHash key).toNat + j) % ctx.htSize) ≠ none) :
    ∃ new, ctx.insert (dtHash key) key (((dtHash key).toNat + d) % ctx.htSize) = .ok new ∧
      Stored maxUnique bufSize new (pool ++ [key]) ∧ new.htSize = ctx.htSize := by
  obtain ⟨buf, buf', hcopy, hzero, hlen, hprefix⟩ := h.write hfits
  have hplace : ctx.nextCode < ctx.uniqueOffsets.length := by
    rw [h.nextCode, h.places]
    exact hunique
  set e : Slot := ⟨dtHash key, ctx.nextCode, ctx.bufPos, key.length⟩ with he
  have hentry : e = entry (pool ++ [key]) pool.length key := by
    rw [he, entry_append le_rfl, entry, place_length, h.nextCode, h.bufPos]
  set i := ((dtHash key).toNat + d) % ctx.htSize with hi
  have hplaced : Placed (fun e : Slot => e.hash.toNat) ctx.htSize
      (Function.update ctx.table i (some e)) := h.placed.update (e := e) hd hbefore
  refine ⟨{ ctx with
    table := Function.update ctx.table i (some e)
    uniqueBuf := buf'
    bufPos := ctx.bufPos + (key.length + 1)
    uniqueOffsets := ctx.uniqueOffsets.set ctx.nextCode ctx.bufPos
    nextCode := ctx.nextCode + 1
    htCount := ctx.htCount + 1 }, ?_, ?_, rfl⟩
  · rw [StrCtx.insert, hcopy, ok_bind, hzero, ok_bind, storeAt, if_pos hplace, ok_bind]
  · refine ⟨h.bufLimit, h.uniqueLimit, hlen, ?_, h.size, h.large, h.mask, ?_, ?_, ?_, ?_, hprefix,
      fun c hc => ?_, ?_, hplaced, ?_, fun e' => ?_⟩
    · rw [List.length_set, h.places]
    · exact List.nodup_append.mpr ⟨h.nodup, List.nodup_singleton key, fun a ha b hb heq =>
        hkey (List.mem_singleton.mp hb ▸ heq ▸ ha)⟩
    · simp [h.nextCode]
    · simp [h.htCount]
    · simp [h.bufPos]
    · rw [List.length_append, List.length_singleton] at hc
      simp only [List.getElem?_set, h.nextCode]
      rcases Nat.lt_succ_iff_lt_or_eq.mp hc with hlt | rfl
      · rw [if_neg (by omega), place_append hlt.le, h.offsets c hlt]
      · rw [if_pos rfl, if_pos (h.places ▸ hunique), place_append le_rfl, place_length, h.bufPos]
    · rw [List.length_append, List.length_singleton]
      exact hunique
    · rw [List.length_append, List.length_singleton, ← h.occupied]
      exact occupied_update (Nat.mod_lt _ (Nat.zero_lt_of_lt hd)) hnone e
    · rw [mem_update hnone, h.mem e']
      have hcode : e.code = pool.length := h.nextCode
      constructor
      · rintro (rfl | ⟨t, ht, heq⟩)
        · exact ⟨key, by rw [hcode]; simp, by rw [hcode, ← hentry]⟩
        · have hlt := (List.getElem?_eq_some_iff.mp ht).1
          refine ⟨t, ?_, ?_⟩
          · rw [List.getElem?_append_left hlt, ht]
          · rwa [entry_append hlt.le]
      · rintro ⟨t, ht, heq⟩
        have hlen := (List.getElem?_eq_some_iff.mp ht).1
        rw [List.length_append, List.length_singleton] at hlen
        rcases Nat.lt_succ_iff_lt_or_eq.mp hlen with hlt | hlast
        · rw [List.getElem?_append_left hlt] at ht
          rw [entry_append hlt.le] at heq
          exact .inr ⟨t, ht, heq⟩
        · rw [hlast, List.getElem?_concat_length] at ht
          obtain rfl := Option.some.inj ht
          rw [hlast, ← hentry] at heq
          exact .inl heq

/-- The table is made larger. -/
theorem Stored.rehash (h : Stored maxUnique bufSize ctx pool)
    (hroom : pool.length ≤ ctx.htSize) : Stored maxUnique bufSize ctx.rehash pool := by
  obtain ⟨k, hk⟩ := h.size
  have hsize : ctx.htSize * 2 = 2 ^ (k + 1) := by rw [hk, pow_succ]
  have hslot : (fun (e : Slot) => StrCtx.slot (ctx.htSize * 2 - 1) e.hash) =
      fun e p => (e.hash.toNat + p) % (ctx.htSize * 2) := by
    funext e p
    rw [slot_eq (by rw [hsize]), hsize]
  have hroom' : OpenAddressing.occupied ctx.htSize ctx.table ≤ ctx.htSize * 2 := by
    rw [h.occupied]
    omega
  have htable :=
    @rehash_ok Slot ctx.table (fun e => e.hash.toNat) (ctx.htSize * 2) ctx.htSize hroom'
  rw [← hslot] at htable
  have hlarge := h.large
  refine ⟨h.bufLimit, h.uniqueLimit, h.share, h.places, ⟨k + 1, hsize⟩, ?_, rfl, h.nodup,
    h.nextCode, h.htCount, h.bufPos, h.buf, h.offsets, h.length_le, htable.placed, ?_, fun e => ?_⟩
  · change 8192 ≤ ctx.htSize * 2
    omega
  · exact htable.occupied.trans h.occupied
  · refine (htable.mem e).trans (Iff.trans ?_ (h.mem e))
    refine ⟨fun ⟨i, _, hi⟩ => ⟨i, hi⟩, fun ⟨i, hi⟩ => ⟨i, h.placed.lt hi, hi⟩⟩

/-- **What `_dt_str_ctx_intern` does**: it finds or adds a string, and only a string for
which there is no room makes it leave the range of an `int`. -/
theorem Represents.intern (h : Represents maxUnique bufSize ctx pool) (key : Text) :
    (∃ ctx', ctx.intern key = .ok (ctx', (enter maxUnique bufSize pool key).2) ∧
      Represents maxUnique bufSize ctx' (enter maxUnique bufSize pool key).1) ∨
    (ctx.intern key = .error .undefined ∧ key ∉ pool ∧
      2147483647 < (layout (pool ++ [key])).length) := by
  by_cases hkey : key ∈ pool
  · refine .inl ⟨ctx, ?_, ?_⟩
    · rw [h.toStored.intern_mem hkey, enter, if_pos hkey]
    · rwa [enter, if_pos hkey]
  · obtain ⟨d, hd, hprobe, hnone, hbefore⟩ :=
      probe_absent (h.isKey_eq_false hkey) h.exists_empty (dtHash key).toNat
    have hlen : ctx.bufPos + key.length + 1 = (layout (pool ++ [key])).length := by
      simp [h.bufPos, Nat.add_assoc]
    rw [StrCtx.intern, h.slot, enter, if_neg hkey]
    simp only [hprobe, hnone, h.uniqueLimit, h.nextCode, h.bufLimit, hlen]
    by_cases hunique : maxUnique ≤ pool.length
    · rw [if_pos hunique, if_neg (by omega)]
      exact .inl ⟨ctx, rfl, h⟩
    · rw [if_neg hunique]
      by_cases hint : (layout (pool ++ [key])).length ≤ 2147483647
      · rw [nonnegInt, if_pos hint, ok_bind]
        by_cases hfits : bufSize < (layout (pool ++ [key])).length
        · rw [if_pos hfits, if_neg (by omega)]
          exact .inl ⟨ctx, rfl, h⟩
        · rw [if_neg hfits, if_pos ⟨by omega, by omega⟩]
          obtain ⟨new, hinsert, hnew, hsize⟩ :=
            h.toStored.insert hkey (by omega) (by omega) hd hnone hbefore
          have hload := h.load
          have hlarge := h.large
          have hcount : new.htCount = pool.length + 1 := by
            rw [hnew.htCount, List.length_append, List.length_singleton]
          refine .inl ⟨_, by rw [hinsert, ok_bind], ?_⟩
          split_ifs with hfull
          · refine ⟨hnew.rehash ?_, ?_⟩
            · rw [List.length_append, List.length_singleton]
              omega
            · change (pool ++ [key]).length * 10 ≤ new.htSize * 2 * 7
              rw [List.length_append, List.length_singleton]
              omega
          · refine ⟨hnew, ?_⟩
            rw [List.length_append, List.length_singleton]
            omega
      · rw [nonnegInt, if_neg hint, error_bind]
        exact .inr ⟨rfl, hkey, by omega⟩

/-- A context without strings. -/
theorem represents_init {share : List UInt8} {places : List ℕ} (hshare : share.length = bufSize)
    (hplaces : places.length = maxUnique) :
    Represents maxUnique bufSize (StrCtx.init share bufSize places maxUnique) [] := by
  refine ⟨⟨rfl, rfl, hshare, hplaces, ⟨13, rfl⟩, le_rfl, rfl, List.nodup_nil, rfl, rfl, rfl,
    List.nil_prefix, fun c hc => absurd hc (Nat.not_lt_zero c), Nat.zero_le _, placed_empty,
    occupied_empty, fun e => ?_⟩, Nat.zero_le _⟩
  simp [StrCtx.init, empty]

end Lush.Csv
