import PS3Native.Slices

/-!
# Modes of block ciphers

In cipher block chaining each block is decrypted with the block before it, the first one with an
initialization vector. In counter mode a message is combined with a stream of keys that can be
entered at the start of any block.
-/
namespace PS3Native
open List

universe u

variable {α : Type u} (decryptBlock : List α → List α) (xor : α → α → α) (size : ℕ)

def cbcDecrypt : ℕ → List α → List α → List α
  | 0, _, _ => []
  | count+1, iv, input =>
    List.zipWith xor (decryptBlock (input.take size)) iv ++
      cbcDecrypt count (input.take size) (input.drop size)

variable {decryptBlock xor size} {iv input : List α} {count : ℕ}

theorem length_cbcDecrypt
    (hblock : ∀ block, block.length=size → (decryptBlock block).length=size)
    (hiv : iv.length=size) (hinput : count*size ≤ input.length) :
    (cbcDecrypt decryptBlock xor size count iv input).length = count*size := by
  induction count generalizing iv input with
  | zero => simp [cbcDecrypt]
  | succ count ih =>
    rw [Nat.succ_mul] at hinput
    have htake : (input.take size).length=size := by
      rw [length_take]
      omega
    rw [cbcDecrypt,length_append,length_zipWith,hblock _ htake,hiv,Nat.min_self,
      ih htake (by rw [length_drop]; omega),Nat.succ_mul,Nat.add_comm]

/-- The blocks after the first `first` ones need the last one of these. -/
theorem cbcDecrypt_add (first count : ℕ) (iv input : List α) :
    cbcDecrypt decryptBlock xor size (first+1+count) iv input =
      cbcDecrypt decryptBlock xor size (first+1) iv input ++
        cbcDecrypt decryptBlock xor size count (slice input (first*size) size)
          (input.drop ((first+1)*size)) := by
  induction first generalizing iv input with
  | zero => simp [cbcDecrypt,slice,Nat.add_comm 1 count]
  | succ first ih =>
    have hslice : slice (input.drop size) (first*size) size =
        slice input ((first+1)*size) size := by
      simp only [slice]
      rw [drop_drop,Nat.add_comm,← Nat.succ_mul]
    have hdrop : (input.drop size).drop ((first+1)*size) = input.drop ((first+1+1)*size) := by
      rw [drop_drop,Nat.add_comm,← Nat.succ_mul]
    have hfirst : cbcDecrypt decryptBlock xor size (first+1+1) iv input =
        zipWith xor (decryptBlock (input.take size)) iv ++
          cbcDecrypt decryptBlock xor size (first+1) (input.take size) (input.drop size) := rfl
    rw [show first+1+1+count = first+1+count+1 by omega,cbcDecrypt,ih,hslice,hdrop,
      hfirst,append_assoc]

theorem cbcDecrypt_take {n : ℕ} (h : count*size ≤ n) :
    cbcDecrypt decryptBlock xor size count iv (input.take n) =
      cbcDecrypt decryptBlock xor size count iv input := by
  induction count generalizing iv input n with
  | zero => rfl
  | succ count ih =>
    rw [Nat.succ_mul] at h
    rw [cbcDecrypt,cbcDecrypt,take_take,Nat.min_eq_left (by omega),drop_take, ih (by omega)]

section

variable (hblock : ∀ block, block.length=size → (decryptBlock block).length=size)
  (hiv : iv.length=size)

include hblock hiv

theorem slice_zero_cbcDecrypt {m : ℕ} (hm : m ≤ count) (hinput : count*size ≤ input.length) :
    slice (cbcDecrypt decryptBlock xor size count iv input) 0 (m*size) =
      cbcDecrypt decryptBlock xor size m iv (slice input 0 (m*size)) := by
  simp only [slice,drop_zero]
  rw [cbcDecrypt_take (Nat.le_refl _)]
  rcases Nat.eq_zero_or_pos m with rfl | hpos
  · simp [cbcDecrypt]
  obtain ⟨first,rfl⟩ : ∃ first, m = first+1 := ⟨m-1,by omega⟩
  obtain ⟨rest,rfl⟩ : ∃ rest, count = first+1+rest := ⟨count-(first+1),by omega⟩
  rw [cbcDecrypt_add]
  refine take_left' (length_cbcDecrypt hblock hiv ?_)
  exact Nat.le_trans (Nat.mul_le_mul_right _ hm) hinput

/-- Blocks behind another one can be decrypted with it as their initialization vector. -/
theorem slice_cbcDecrypt {first m : ℕ} (hm : first+1+m ≤ count)
    (hinput : count*size ≤ input.length) :
    slice (cbcDecrypt decryptBlock xor size count iv input) ((first+1)*size) (m*size) =
      cbcDecrypt decryptBlock xor size m (slice input (first*size) size)
        (slice input ((first+1)*size) (m*size)) := by
  obtain ⟨rest,rfl⟩ : ∃ rest, count = first+1+rest := ⟨count-(first+1),by omega⟩
  rw [Nat.add_mul] at hinput
  have hfirst : (cbcDecrypt decryptBlock xor size (first+1) iv input).length =
      (first+1)*size := length_cbcDecrypt hblock hiv (by omega)
  have hprev : (slice input (first*size) size).length=size :=
    length_slice (by rw [Nat.succ_mul] at hinput; omega)
  have hrest : slice (cbcDecrypt decryptBlock xor size rest (slice input (first*size) size)
      (input.drop ((first+1)*size))) 0 (m*size) =
      cbcDecrypt decryptBlock xor size m (slice input (first*size) size)
        (slice (input.drop ((first+1)*size)) 0 (m*size)) :=
    slice_zero_cbcDecrypt hblock hprev (by omega) (by rw [length_drop]; omega)
  have hright := slice_append_right (cbcDecrypt decryptBlock xor size (first+1) iv input)
    (cbcDecrypt decryptBlock xor size rest (slice input (first*size) size)
      (input.drop ((first+1)*size))) 0 (m*size)
  rw [hfirst,Nat.add_zero ((first+1)*size),hrest] at hright
  rw [cbcDecrypt_add,hright]
  rfl

end

variable {α : Type u} (op : α → α → α) (key : ℕ → α)

def xorStream (n : ℕ) (data : List α) : List α := data.mapIdx fun i a => op a (key (n+i))

variable {op key} {n : ℕ} {data : List α}

@[simp] theorem length_xorStream (n : ℕ) (data : List α) :
    (xorStream op key n data).length=data.length := length_mapIdx

theorem getElem?_xorStream (n : ℕ) (data : List α) (i : ℕ) :
    (xorStream op key n data)[i]? = data[i]?.map fun a => op a (key (n+i)) := getElem?_mapIdx

theorem xorStream_append (n : ℕ) (data data' : List α) : xorStream op key n (data++data') =
      xorStream op key n data++xorStream op key (n+data.length) data' := by
  simp only [xorStream,mapIdx_append,Nat.add_assoc,Nat.add_comm data.length]

theorem slice_xorStream (n : ℕ) (data : List α) (pos k : ℕ) :
    slice (xorStream op key n data) pos k = xorStream op key (n+pos) (slice data pos k) := by
  apply ext_getElem?
  intro i
  rw [getElem?_xorStream,slice,slice,getElem?_take,getElem?_take]
  split
  · rw [getElem?_drop,getElem?_drop,getElem?_xorStream,Nat.add_assoc]
  · rfl

theorem zipWith_eq_xorStream {block : List α} (hlen : block.length=data.length)
    (hkey : ∀ i (h : i < block.length), key (n+i) = block[i]) :
    zipWith op data block = xorStream op key n data := by
  apply ext_getElem?
  intro i
  rw [getElem?_xorStream,getElem?_zipWith]
  by_cases hi : i < data.length
  · rw [getElem?_eq_getElem hi,getElem?_eq_getElem (hlen ▸ hi),Option.map_some, hkey i (hlen ▸ hi)]
  · rw [getElem?_eq_none (by omega),getElem?_eq_none (by omega)]
    rfl

end PS3Native
