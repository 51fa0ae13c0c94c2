import Mathlib.Algebra.Order.BigOperators.Group.Finset
import Xv6.Lib.Word
import Xv6.Laws.Fs.Bmap

/-!
# Files are byte strings

`readi` returns a of a file's contents and `writei` replaces a part of them, across all four
levels of the block map and whatever the offsets are; `filewrite`, which cuts a write into
transactions, does what one `writei` of all the bytes does. Both loops go block by block: one turn
is `Vol.Grows.wrote`, and `Looped` is what any number of turns amount to.
-/

namespace Xv6

open Function Xv6.Lib

namespace FsImage

variable {s s' s'' : FsImage} {cur : Inum → Dinode} {ip ip' ip'' : Dinode} {i : Inum} {b : Nat}
  {S : Finset Place} {lo mid hi off off' n : Nat} {f src : Nat → Byte}

/-- What the first check of `readi` and `writei` lets through. -/
theorem in_file {size off n : Word} (h : ¬ (size < off ∨ off + n < off)) :
    off.toNat ≤ size.toNat ∧ (off + n).toNat = off.toNat + n.toNat := by
  obtain ⟨hoff, hwrap⟩ := not_or.1 h
  exact ⟨BitVec.le_def.1 (BitVec.not_lt.1 hoff), toNat_add_of_le (BitVec.not_lt.1 hwrap)⟩

/-! ## Reading -/

/-- The loop of `readi` over blocks that have addresses: nothing is allocated. -/
theorem readLoop_spec {V : Vol} (hs : V.Sound) (harea : V.area = s.area) (hcur : V.cur i = ip) :
    ∀ fuel {off n}, n ≤ fuel → (∀ o, off ≤ o → o < off + n → V.lookup i (o / BSIZE) ≠ 0) →
    s.readLoop ip fuel off n = some ((List.range n).map fun k => V.byteAt i (off + k), s, ip) := by
  intro fuel
  induction fuel with
  | zero =>
    intro off n hn _
    obtain rfl : n = 0 := by omega
    rfl
  | succ fuel ih =>
    intro off n hn hmap
    unfold readLoop
    by_cases h0 : n = 0
    · subst h0
      rfl
    · have hlook := hmap off (Nat.le_refl off) (by omega)
      have hmod : off % BSIZE < BSIZE := Nat.mod_lt off (by decide)
      have hm : min n (BSIZE - off % BSIZE) ≤ n := Nat.min_le_left _ _
      have hm' : off % BSIZE + min n (BSIZE - off % BSIZE) ≤ BSIZE := by omega
      have hpos : 0 < min n (BSIZE - off % BSIZE) := by omega
      generalize min n (BSIZE - off % BSIZE) = m at hm hm' hpos ⊢
      rw [if_neg h0, bmap_mapped hs harea hcur hlook, Option.bind_some]
      simp only
      rw [ih (by omega) fun o h1 h2 => hmap o (by omega) (by omega), Option.map_some]
      obtain ⟨hmeta, hsize⟩ := hs.lookup_range hlook
      have hblk : (List.range m).map (fun k => (s.blk (V.lookup i (off / BSIZE))).byte
          (off % BSIZE + k)) = (List.range m).map fun k => V.byteAt i (off + k) := by
        apply List.map_congr_left
        intro k hk
        have hk := List.mem_range.1 hk
        have hdiv : (off + k) / BSIZE = off / BSIZE := by
          simp only [BSIZE] at hm' ⊢
          omega
        have hrem : (off + k) % BSIZE = off % BSIZE + k := by
          simp only [BSIZE] at hm' ⊢
          omega
        unfold Vol.byteAt
        rw [hdiv, hrem, harea, area_of_mem hmeta hsize]
      have hsplit : List.range n = List.range m ++ (List.range (n - m)).map (m + ·) := by
        rw [← List.range_add, Nat.add_sub_cancel' hm]
      rw [hblk, hsplit, List.map_append, List.map_map]
      simp only [comp_def, Nat.add_assoc]

/-- `readi` returns the bytes of the file between the offset and its end, and changes nothing. -/
theorem readi_spec {V : Vol} (hV : V.Consistent) (harea : V.area = s.area) (hcur : V.cur i = ip)
    (htype : ip.type ≠ 0) (hdev : ip.type ≠ T_DEV) (off n : Word) :
    s.readi ip off n = some (
      if ip.size < off ∨ off + n < off then (.error, s, ip)
      else (.done (((V.contents i).drop off.toNat).take n.toNat), s, ip)) := by
  unfold readi
  rw [if_neg hdev]
  by_cases herr : ip.size < off ∨ off + n < off
  · rw [if_pos herr, if_pos herr]
  · rw [if_neg herr, if_neg herr]
    obtain ⟨hoff, hadd⟩ := in_file herr
    have hcount : (if ip.size < off + n then ip.size - off else n).toNat =
        min n.toNat (ip.size.toNat - off.toNat) := by
      split
      next h =>
        rw [BitVec.lt_def, hadd] at h
        rw [BitVec.toNat_sub_of_le (BitVec.le_def.2 hoff)]
        omega
      next h =>
        rw [BitVec.lt_def, hadd] at h
        omega
    simp only [hcount]
    rw [readLoop_spec hV.toSound harea hcur _ (Nat.le_refl _), Option.map_some]
    · congr 2
      congr 1
      apply List.ext_getElem?
      intro k
      rw [List.getElem?_map, List.getElem?_take, List.getElem?_drop, Vol.getElem?_contents, hcur]
      by_cases hk : k < min n.toNat (ip.size.toNat - off.toNat)
      · rw [List.getElem?_range hk, Option.map_some, if_pos (by omega), if_pos (by omega)]
      · rw [List.getElem?_eq_none (by simp; omega), Option.map_none]
        by_cases hkn : k < n.toNat
        · rw [if_pos hkn, if_neg (by omega)]
        · rw [if_neg hkn]
    · intro o h1 h2
      apply hV.lookup_byte
      · rw [hcur]
        exact htype
      · rw [hcur]
        omega

/-! ## Writing -/

/-- A number of turns of the loop of `writei`, over the bytes `lo` to `hi` of the file. -/
structure Looped (i : Inum) (cur : Inum → Dinode) (S : Finset Place) (lo hi : Nat)
    (f : Nat → Byte) (s : FsImage) (ip : Dinode) (s' : FsImage) (ip' : Dinode) : Prop where
  wrote : Vol.Wrote i lo hi f (s.vol (update cur i ip)) (s'.vol (update cur i ip'))
  same : ∃ addrs, ip' = { ip with addrs := addrs }
  disk : ∀ j, j < NINODES → s'.dinode j = s.dinode j
  room : (s.vol (update cur i ip)).Room S → (s'.vol (update cur i ip')).Room S
  found : (∀ o, lo ≤ o → o < hi →
    (s.vol (update cur i ip)).lookup i (o / BSIZE) ≠ 0) → ip' = ip

theorem Looped.refl (hs : (s.vol (update cur i ip)).Sound) :
    Looped i cur S lo lo f s ip s ip :=
  ⟨.refl hs, ⟨ip.addrs, rfl⟩, fun _ _ => rfl, id, fun _ => rfl⟩

theorem Looped.trans (h : Looped i cur S lo mid f s ip s' ip')
    (h' : Looped i cur S mid hi f s' ip' s'' ip'') (hle : lo ≤ mid) (hle' : mid ≤ hi) :
    Looped i cur S lo hi f s ip s'' ip'' where
  wrote := h.wrote.trans h'.wrote hle hle'
  same := by
    obtain ⟨x, hx⟩ := h.same
    obtain ⟨y, hy⟩ := h'.same
    exact ⟨y, by rw [hy, hx]⟩
  disk j hj := (h'.disk j hj).trans (h.disk j hj)
  room hr := h'.room (h.room hr)
  found hmap := by
    have hfirst : ip' = ip := h.found fun o h1 h2 => hmap o h1 (by omega)
    rw [← hfirst]
    apply h'.found
    intro o h1 h2
    have h0 := hmap o (by omega) h2
    rw [h.wrote.lookup h0]
    exact h0

/-- One turn: the block of the offset is found or allocated, and written. -/
theorem Looped.turn (hS : Vol.Paths S) (hs : (s.vol (update cur i ip)).Sound)
    (htype : ip.type ≠ 0) (hreach : Vol.places i (lo / BSIZE) ⊆ S)
    (h : s.bmap ip (lo / BSIZE) = some (b, s', ip')) {m : Nat} (hm0 : 0 < m)
    (hm : lo % BSIZE + m ≤ BSIZE) {g : Nat → Byte} (hg : ∀ k, k < m → g k = f (lo + k)) :
    Looped i cur S lo (lo + m) f s ip (s'.logWrite b ((s'.blk b).write (lo % BSIZE) m g)) ip' := by
  obtain ⟨hgrew, hb, hb0, haddrs⟩ := bmap_spec hs htype h
  obtain ⟨hmeta, hsize⟩ := hgrew.sound.lookup_range (by rw [hb]; exact hb0)
  rw [hb] at hmeta hsize
  have hvol : (s'.logWrite b ((s'.blk b).write (lo % BSIZE) m g)).vol (update cur i ip') =
      (s'.vol (update cur i ip')).put b
        (((s'.vol (update cur i ip')).area b).write (lo % BSIZE) m g) := by
    rw [vol_logWrite hmeta hsize]
    show _ = Vol.put _ b (Bytes.write (s'.area b) _ _ _)
    rw [area_of_mem hmeta hsize]
  refine ⟨?_, haddrs, ?_, ?_, ?_⟩
  · rw [hvol]
    exact hgrew.grows.wrote hgrew.sound hb hb0 hm0 hm hg
  · intro j hj
    rw [dinode_logWrite hmeta hj, hgrew.disk j hj]
  · intro hr
    have hr' := (hgrew.grows.mono hreach hS).room hr
    unfold Vol.Room at hr' ⊢
    have hgap : ((s'.logWrite b ((s'.blk b).write (lo % BSIZE) m g)).vol
        (update cur i ip')).gap S = (s'.vol (update cur i ip')).gap S := by
      rw [hvol]
      apply Finset.filter_congr
      intro x hx
      rw [hgrew.sound.addr_put hb (hS x hx) hb0]
    rw [hgap, hvol]
    exact hr'
  · intro hmap
    have hmapped := bmap_mapped hs rfl (update_self _ _ _)
      (hmap lo (Nat.le_refl lo) (by omega))
    rw [h] at hmapped
    cases hmapped
    rfl

theorem writeLoop_spec (hS : Vol.Paths S) : ∀ fuel {tot off} {s : FsImage} {ip : Dinode}, n - tot ≤ fuel →
    (s.vol (update cur i ip)).Sound → ip.type ≠ 0 →
    (∀ o, off ≤ o → o < off + (n - tot) → Vol.places i (o / BSIZE) ⊆ S) →
    (∀ k, tot + k < n → src (tot + k) = f (off + k)) →
    s.writeLoop src n ip fuel tot off = some (s', ip', off') →
    off' = off + (n - tot) ∧ Looped i cur S off (off + (n - tot)) f s ip s' ip' := by
  intro fuel
  induction fuel with
  | zero =>
    intro tot off s ip hfuel hs _ _ _ h
    cases h
    have hz : n - tot = 0 := by omega
    rw [hz]
    exact ⟨rfl, .refl hs⟩
  | succ fuel ih =>
    intro tot off s ip hfuel hs htype hreach hf h
    unfold writeLoop at h
    split at h
    next hlt =>
      obtain ⟨⟨b, s₁, ip₁⟩, hb, h⟩ := Option.bind_eq_some_iff.mp h
      simp only at h
      have hmod : off % BSIZE < BSIZE := Nat.mod_lt off (by decide)
      have hm : min (n - tot) (BSIZE - off % BSIZE) ≤ n - tot := Nat.min_le_left _ _
      have hm' : off % BSIZE + min (n - tot) (BSIZE - off % BSIZE) ≤ BSIZE := by omega
      have hpos : 0 < min (n - tot) (BSIZE - off % BSIZE) := by omega
      generalize min (n - tot) (BSIZE - off % BSIZE) = m at hm hm' hpos h
      have hturn : Looped i cur S off (off + m) f s ip _ ip₁ := .turn hS hs htype
        (hreach off (Nat.le_refl off) (by omega)) hb hpos hm' fun k hk => hf k (by omega)
      obtain ⟨addrs, rfl⟩ := hturn.same
      obtain ⟨hoff, hrest⟩ := ih (by omega) hturn.wrote.sound htype
        (fun o h1 h2 => hreach o (by omega) (by omega))
        (fun k hk => by
          rw [Nat.add_assoc, Nat.add_assoc]
          exact hf (m + k) (by omega)) h
      have hend : off + m + (n - (tot + m)) = off + (n - tot) := by omega
      rw [hend] at hoff hrest
      exact ⟨hoff, hturn.trans hrest (by omega) (by omega)⟩
    next hge =>
      cases h
      have hz : n - tot = 0 := by omega
      rw [hz]
      exact ⟨rfl, .refl hs⟩

theorem writeLoop_total (hS : Vol.Paths S) : ∀ fuel {tot off} {s : FsImage} {ip : Dinode},
    (s.vol (update cur i ip)).Sound → ip.type ≠ 0 → (s.vol (update cur i ip)).Room S →
    (∀ o, off ≤ o → o < off + (n - tot) → Vol.places i (o / BSIZE) ⊆ S ∧ (bmapPath (o / BSIZE)).isSome) →
    ∃ r, s.writeLoop src n ip fuel tot off = some r := by
  intro fuel
  induction fuel with
  | zero =>
    intro tot off s ip _ _ _ _
    exact ⟨_, rfl⟩
  | succ fuel ih =>
    intro tot off s ip hs htype hr hreach
    unfold writeLoop
    by_cases hlt : tot < n
    · have hmod : off % BSIZE < BSIZE := Nat.mod_lt off (by decide)
      have hm : min (n - tot) (BSIZE - off % BSIZE) ≤ n - tot := Nat.min_le_left _ _
      have hm' : off % BSIZE + min (n - tot) (BSIZE - off % BSIZE) ≤ BSIZE := by omega
      have hpos : 0 < min (n - tot) (BSIZE - off % BSIZE) := by omega
      obtain ⟨hfirst, hpath⟩ := hreach off (Nat.le_refl off) (by omega)
      obtain ⟨b, s₁, ip₁, hb⟩ := bmap_total hs htype (hr.mono hfirst) hpath
      rw [if_pos hlt, hb, Option.bind_some]
      simp only
      generalize min (n - tot) (BSIZE - off % BSIZE) = m at hm hm' hpos ⊢
      have hturn : Looped i cur S off (off + m) (fun o => src (tot + (o - off))) s ip _ ip₁ :=
        .turn hS hs htype hfirst hb hpos hm' (g := fun k => src (tot + k)) fun k hk => by
          rw [Nat.add_sub_cancel_left]
      obtain ⟨addrs, rfl⟩ := hturn.same
      exact ih hturn.wrote.sound htype (hturn.room hr) fun o h1 h2 => hreach o (by omega) (by omega)
    · rw [if_neg hlt]
      exact ⟨_, rfl⟩

/-- What `writei` does: `n` bytes of file `i` from `off` on are those of `src`. -/
structure Stored (i : Inum) (cur : Inum → Dinode) (S : Finset Place) (off n : Nat)
    (src : Nat → Byte) (s : FsImage) (ip : Dinode) (s' : FsImage) (ip' : Dinode) : Prop where
  consistent : (s'.vol (update cur i ip')).Consistent
  contents : (s'.vol (update cur i ip')).contents i =
    Vol.splice ((s.vol (update cur i ip)).contents i) off ((List.range n).map src)
  others : ∀ j, j ≠ i → (cur j).type ≠ 0 → (s'.vol (update cur i ip')).contents j =
    (s.vol (update cur i ip)).contents j
  same : ∃ size addrs, ip' = { ip with size := size, addrs := addrs }
  size : ip'.size.toNat = max ip.size.toNat (off + n)
  disk : ∀ j : Inum, j ≠ i → s'.dinode j = s.dinode j
  through : s.dinode i = ip → s'.dinode i = ip'
  room : (s.vol (update cur i ip)).Room S → (s'.vol (update cur i ip')).Room S

theorem Stored.refl (hV : (s.vol (update cur i ip)).Consistent)
    (hoff : off ≤ ip.size.toNat) : Stored i cur S off 0 src s ip s ip where
  consistent := hV
  contents := by simp [Vol.splice]
  others _ _ _ := rfl
  same := ⟨ip.size, ip.addrs, rfl⟩
  size := by omega
  disk _ _ := rfl
  through h := h
  room := id

/-- One write after another, at the offset where the first one ended. -/
theorem Stored.trans {m : Nat} (h : Stored i cur S off m src s ip s' ip')
    (h' : Stored i cur S (off + m) n (fun k => src (m + k)) s' ip' s'' ip'')
    (hoff : off ≤ ip.size.toNat) : Stored i cur S off (m + n) src s ip s'' ip'' where
  consistent := h'.consistent
  contents := by
    have hlen : off ≤ ((s.vol (update cur i ip)).contents i).length := by
      rw [Vol.length_contents]
      show _ ≤ (update cur i ip i).size.toNat
      rw [update_self]
      exact hoff
    have hm : ((List.range m).map src).length = m := by simp
    have hsplice : ∀ rest, Vol.splice (Vol.splice _ off ((List.range m).map src)) _ rest = _ :=
      fun rest => Vol.splice_splice hlen
    rw [hm] at hsplice
    rw [h'.contents, h.contents, hsplice, List.range_add, List.map_append, List.map_map]
    rfl
  others j hj ht := (h'.others j hj ht).trans (h.others j hj ht)
  same := by
    obtain ⟨x, y, hx⟩ := h.same
    obtain ⟨z, w, hz⟩ := h'.same
    exact ⟨z, w, by rw [hz, hx]⟩
  size := by
    have := h.size
    have := h'.size
    omega
  disk j hj := (h'.disk j hj).trans (h.disk j hj)
  through hd := h'.through (h.through hd)
  room hr := h'.room (h.room hr)

theorem vol_setSize {size : Word} : s.vol (update cur i { ip with size }) =
    (s.vol (update cur i ip)).setSize i size := by
  show Vol.mk _ _ _ = Vol.mk (update (update cur i ip) i
    { update cur i ip i with size }) _ _
  rw [update_self, update_idem]
  rfl

/-- The loop of `writei`, and the size and the inode on disk brought up to date. -/
theorem Looped.stored (h : Looped i cur S off (off + n) f s ip s' ip')
    (hV : (s.vol (update cur i ip)).Consistent) (htype : ip.type ≠ 0)
    (hoff : off ≤ ip.size.toNat) (hfit : off + n < 2 ^ 32) (hf : ∀ k, k < n → src k = f (off + k))
    {s'' : FsImage} {ip'' : Dinode}
    (hend : (s'', ip'') = if 0 < n ∧ ip'.size.toNat < off + n then
      (s'.iupdate i { ip' with size := .ofNat 32 (off + n) },
        { ip' with size := .ofNat 32 (off + n) })
      else (s', ip')) :
    Stored i cur S off n src s ip s'' ip'' := by
  obtain ⟨addrs, haddrs⟩ := h.same
  have hself : (s.vol (update cur i ip)).cur i = ip := update_self _ _ _
  have hsize' : ip'.size = ip.size := by rw [haddrs]
  have hbytes : (List.range n).map src = (List.range n).map fun k => f (off + k) :=
    List.map_congr_left fun k hk => hf k (List.mem_range.1 hk)
  have hothers : ∀ j, j ≠ i → (s.vol (update cur i ip)).cur j = cur j := fun j hj =>
    update_of_ne hj _ _
  by_cases hgrow : 0 < n ∧ ip'.size.toNat < off + n
  · rw [if_pos hgrow] at hend
    obtain ⟨rfl, rfl⟩ := Prod.mk.inj hend
    have hsz : (BitVec.ofNat 32 (off + n)).toNat =
        max ((s.vol (update cur i ip)).cur i).size.toNat (off + n) := by
      rw [hself, BitVec.toNat_ofNat, Nat.mod_eq_of_lt hfit, ← hsize']
      omega
    obtain ⟨hcons, hcont, hoth⟩ := h.wrote.resize hV (by rw [hself]; exact htype)
      (by rw [hself]; exact hoff) hsz
    have hvol : (s'.iupdate i { ip' with size := .ofNat 32 (off + n) }).vol (update cur i
        { ip' with size := .ofNat 32 (off + n) }) =
        (s'.vol (update cur i ip')).setSize i (.ofNat 32 (off + n)) := by
      rw [vol_iupdate, vol_setSize]
    refine ⟨?_, ?_, ?_, ?_, ?_, ?_, ?_, ?_⟩
    · rw [hvol]
      exact hcons
    · rw [hvol, hcont, hbytes]
    · intro j hj ht
      rw [hvol]
      exact hoth j hj (by rw [hothers j hj]; exact ht)
    · exact ⟨_, addrs, by rw [haddrs]⟩
    · rw [hself] at hsz
      exact hsz
    · intro j hj
      rw [dinode_iupdate_ne (fun e => hj (Fin.ext e)), h.disk j j.isLt]
    · intro _
      exact dinode_iupdate_self
    · intro hr
      have hr' := h.room hr
      unfold Vol.Room at hr' ⊢
      have hgap : ((s'.vol (update cur i ip')).setSize i (.ofNat 32 (off + n))).gap S =
          (s'.vol (update cur i ip')).gap S := by
        unfold Vol.gap
        rw [Vol.addr_congr Vol.root_setSize rfl]
      rw [hvol, hgap]
      exact hr'
  · rw [if_neg hgrow] at hend
    obtain ⟨rfl, rfl⟩ := Prod.mk.inj hend
    have hle : off + n ≤ ip.size.toNat := by
      rw [hsize'] at hgrow
      omega
    have hfound : ip'' = ip := h.found fun o h1 h2 =>
      hV.lookup_byte (by rw [hself]; exact htype) (by rw [hself]; omega)
    subst hfound
    have hsz : ip''.size.toNat =
        max ((s.vol (update cur i ip'')).cur i).size.toNat (off + n) := by
      rw [hself]
      omega
    obtain ⟨hcons, hcont, hoth⟩ := h.wrote.resize hV (by rw [hself]; exact htype)
      (by rw [hself]; exact hoff) hsz
    have hvol : (s''.vol (update cur i ip'')).setSize i ip''.size =
        s''.vol (update cur i ip'') := vol_setSize.symm
    rw [hvol] at hcons hcont hoth
    refine ⟨hcons, ?_, ?_, ?_, ?_, ?_, ?_, h.room⟩
    · rw [hcont, hbytes]
    · intro j hj ht
      exact hoth j hj (by rw [hothers j hj]; exact ht)
    · exact ⟨ip''.size, ip''.addrs, rfl⟩
    · rw [hself] at hsz
      exact hsz
    · intro j hj
      exact h.disk j j.isLt
    · intro hd
      rw [h.disk i i.isLt]
      exact hd

/-- `writei` that comes to its end has stored the bytes. -/
theorem writei_spec {off n : Word} {m : Nat} (hS : Vol.Paths S)
    (hV : (s.vol (update cur i ip)).Consistent) (htype : ip.type ≠ 0)
    (hreach : ∀ o, off.toNat ≤ o → o < off.toNat + n.toNat → Vol.places i (o / BSIZE) ⊆ S)
    (h : s.writei i ip src off n = some (.done m, s', ip')) :
    m = n.toNat ∧ Stored i cur S off.toNat n.toNat src s ip s' ip' := by
  unfold writei at h
  split at h
  next => cases h
  next =>
    split at h
    next => cases h
    next herr =>
      obtain ⟨hoff, hadd⟩ := in_file herr
      split at h
      next => cases h
      next =>
        obtain ⟨⟨s₁, ip₁, off₁⟩, hloop, h⟩ := Option.map_eq_some_iff.mp h
        have hf : ∀ k, k < n.toNat → src k = src (off.toNat + k - off.toNat) := fun k _ => by
          rw [Nat.add_sub_cancel_left]
        obtain ⟨rfl, hlooped⟩ := writeLoop_spec (f := fun o => src (o - off.toNat)) hS n.toNat
          (Nat.sub_le _ _) hV.toSound htype hreach
          (fun k hk => by rw [Nat.zero_add, Nat.add_sub_cancel_left]) hloop
        rw [Nat.sub_zero] at hlooped h
        have hfit : off.toNat + n.toNat < 2 ^ 32 := by
          rw [← hadd]
          exact (off + n).isLt
        simp only at h
        split at h
        next hgrow =>
          cases h
          exact ⟨rfl, hlooped.stored hV htype hoff hfit hf (by rw [if_pos hgrow])⟩
        next hgrow =>
          cases h
          exact ⟨rfl, hlooped.stored hV htype hoff hfit hf (by rw [if_neg hgrow])⟩

/-- The blocks that `bmap` reaches. -/
theorem bmapPath_isSome {bn : Nat} (h : bn < NDIRECT + NTINDIRECT) : (bmapPath bn).isSome := by
  unfold bmapPath
  split
  next => rfl
  next =>
    simp only
    split
    next => rfl
    next =>
      split
      next => rfl
      next =>
        rw [if_pos (by omega)]
        rfl

/-- `writei` comes to its end, inside the range of `bmap` and with room on the disk. -/
theorem writei_total {off n : Word} (hS : Vol.Paths S)
    (hV : (s.vol (update cur i ip)).Consistent) (htype : ip.type ≠ 0)
    (hdev : ip.type ≠ T_DEV) (hoff : off.toNat ≤ ip.size.toNat)
    (hrange : off.toNat + n.toNat ≤ (NDIRECT + NTINDIRECT) * BSIZE)
    (hreach : ∀ o, off.toNat ≤ o → o < off.toNat + n.toNat → Vol.places i (o / BSIZE) ⊆ S)
    (hr : (s.vol (update cur i ip)).Room S) :
    ∃ s' ip', s.writei i ip src off n = some (.done n.toNat, s', ip') := by
  have hmax : (NDIRECT + NTINDIRECT) * BSIZE < 2 ^ 32 ∧
      (NDIRECT + NTINDIRECT) * BSIZE ≤ MAXFILE * BSIZE := by decide
  have hadd : (off + n).toNat = off.toNat + n.toNat := toNat_add_of_lt (by omega)
  have herr : ¬ (ip.size < off ∨ off + n < off) := by
    rw [BitVec.lt_def, BitVec.lt_def, hadd]
    omega
  have hloop : ∃ r, s.writeLoop src n.toNat ip n.toNat 0 off.toNat = some r :=
    writeLoop_total hS n.toNat hV.toSound htype hr fun o h1 h2 =>
      ⟨hreach o h1 h2, bmapPath_isSome (Nat.div_lt_of_lt_mul (by rw [Nat.mul_comm]; omega))⟩
  obtain ⟨⟨s₁, ip₁, off₁⟩, hloop⟩ := hloop
  unfold writei
  rw [if_neg hdev, if_neg herr, if_neg (by rw [hadd]; omega), hloop, Option.map_some]
  simp only
  split
  · exact ⟨_, _, rfl⟩
  · exact ⟨_, _, rfl⟩

/-! ## Transactions -/

/-- `filewrite` stores the bytes and moves the offset behind them. -/
theorem fileLoop_spec (hS : Vol.Paths S) : ∀ fuel {k} {s : FsImage} {ip : Dinode} {off : Word}, n - k ≤ fuel →
    (s.vol (update cur i ip)).Consistent → ip.type ≠ 0 → ip.type ≠ T_DEV →
    off.toNat ≤ ip.size.toNat → off.toNat + (n - k) ≤ (NDIRECT + NTINDIRECT) * BSIZE →
    (∀ o, off.toNat ≤ o → o < off.toNat + (n - k) → Vol.places i (o / BSIZE) ⊆ S) →
    (s.vol (update cur i ip)).Room S →
    ∃ s' ip', s.fileLoop i src n ip fuel k off =
        some (.done n, off + BitVec.ofNat 32 (n - k), s', ip') ∧
      Stored i cur S off.toNat (n - k) (fun j => src (k + j)) s ip s' ip' := by
  have hmax : (NDIRECT + NTINDIRECT) * BSIZE < 2 ^ 32 := by decide
  have hchunk : 0 < writeMax := by decide
  intro fuel
  induction fuel with
  | zero =>
    intro k s ip off hfuel hV _ _ hoff _ _ _
    obtain hz : n - k = 0 := by omega
    rw [hz]
    exact ⟨s, ip, by rw [BitVec.add_zero]; rfl, .refl hV hoff⟩
  | succ fuel ih =>
    intro k s ip off hfuel hV htype hdev hoff hrange hreach hr
    unfold fileLoop
    by_cases hlt : k < n
    · rw [if_pos hlt]
      have hm : min (n - k) writeMax ≤ n - k := Nat.min_le_left _ _
      have hpos : 0 < min (n - k) writeMax := by omega
      generalize min (n - k) writeMax = m at hm hpos ⊢
      have hm32 : (BitVec.ofNat 32 m).toNat = m := by
        rw [BitVec.toNat_ofNat, Nat.mod_eq_of_lt (by omega)]
      have hadd : (off + BitVec.ofNat 32 m).toNat = off.toNat + m := toNat_add_ofNat (by omega)
      have hreach' : ∀ o, off.toNat ≤ o → o < off.toNat + (BitVec.ofNat 32 m).toNat →
          Vol.places i (o / BSIZE) ⊆ S := fun o h1 h2 => hreach o h1 (by omega)
      -- the transaction starts with an empty list of logged blocks, which no step reads
      have hw : ∃ s₁ ip₁, writei { s with logged := [] } i ip (fun j => src (k + j)) off
          (.ofNat 32 m) = some (.done (BitVec.ofNat 32 m).toNat, s₁, ip₁) :=
        writei_total hS hV htype hdev hoff (by omega) hreach' hr
      obtain ⟨s₁, ip₁, hw⟩ := hw
      obtain ⟨-, hst⟩ := writei_spec (s := { s with logged := [] }) hS hV htype hreach' hw
      rw [hm32] at hw hst
      obtain ⟨size, addrs, hsame⟩ := hst.same
      have hsize := hst.size
      have hrest : ∃ s₂ ip₂, s₁.fileLoop i src n ip₁ fuel (k + m) (off + BitVec.ofNat 32 m) =
            some (.done n, off + BitVec.ofNat 32 m + BitVec.ofNat 32 (n - (k + m)), s₂, ip₂) ∧
          Stored i cur S (off + BitVec.ofNat 32 m).toNat (n - (k + m)) (fun j => src (k + m + j))
            s₁ ip₁ s₂ ip₂ :=
        ih (by omega) hst.consistent (by rw [hsame]; exact htype) (by rw [hsame]; exact hdev)
          (by omega) (by omega) (fun o h1 h2 => hreach o (by omega) (by omega)) (hst.room hr)
      obtain ⟨s₂, ip₂, hloop, hst'⟩ := hrest
      refine ⟨s₂, ip₂, ?_, ?_⟩
      · have hoff' : off + BitVec.ofNat 32 m + BitVec.ofNat 32 (n - (k + m)) =
            off + BitVec.ofNat 32 (n - k) := by
          rw [BitVec.add_assoc, ← BitVec.ofNat_add, show m + (n - (k + m)) = n - k by omega]
        simp only [hw, Option.bind_some, if_true, hloop, hoff']
      · have hlen : m + (n - (k + m)) = n - k := by omega
        rw [← hlen]
        refine Stored.trans (s := s) ⟨hst.consistent, hst.contents, hst.others, hst.same, hst.size,
          hst.disk, hst.through, hst.room⟩ ?_ hoff
        rw [hadd] at hst'
        simpa only [Nat.add_assoc] using hst'
    · rw [if_neg hlt, show n - k = 0 by omega]
      exact ⟨s, ip, by rw [BitVec.add_zero], .refl hV hoff⟩

/-- The places on the way to bytes `off` to `off + n`. -/
def ways (i : Inum) (off n : Nat) : Finset Place :=
  (Finset.range n).biUnion fun k => Vol.places i ((off + k) / BSIZE)

theorem paths_ways : Vol.Paths (ways i off n) := by
  intro x hx
  obtain ⟨k, -, hx⟩ := Finset.mem_biUnion.1 hx
  exact Vol.paths_places x hx

theorem places_subset_ways {o : Nat} (h1 : off ≤ o) (h2 : o < off + n) :
    Vol.places i (o / BSIZE) ⊆ ways i off n := by
  intro x hx
  refine Finset.mem_biUnion.2 ⟨o - off, Finset.mem_range.2 (by omega), ?_⟩
  rw [Nat.add_sub_cancel' h1]
  exact hx

theorem card_places_le (bn : Nat) : (Vol.places i bn).card ≤ 4 := by
  unfold Vol.places
  split
  next => exact Nat.zero_le _
  next k js hpath =>
    have hlen := (Vol.bmapPath_spec hpath).1
    have hk := k.isLt
    refine Nat.le_trans (List.toFinset_card_le _) ?_
    rw [List.length_map, List.length_inits, hlen]
    unfold slotDepth
    omega

theorem card_ways_le_mul : (ways i off n).card ≤ n * 4 := by
  have hcard := Finset.card_biUnion_le_card_mul (Finset.range n)
    (fun k => Vol.places i ((off + k) / BSIZE)) 4 fun k _ => card_places_le _
  rwa [Finset.card_range] at hcard

/-- A file of `n` bytes has at most four blocks for each of its data blocks. -/
theorem card_ways_le {m : Nat} (hn : n ≤ m * BSIZE) : (ways i 0 n).card ≤ m * 4 := by
  have hsub : ways i 0 n ⊆ (Finset.range m).biUnion (Vol.places i) := by
    intro x hx
    obtain ⟨k, hk, hx⟩ := Finset.mem_biUnion.1 hx
    have hk := Finset.mem_range.1 hk
    rw [Nat.zero_add] at hx
    refine Finset.mem_biUnion.2 ⟨k / BSIZE, Finset.mem_range.2 ?_, hx⟩
    exact Nat.div_lt_of_lt_mul (by rw [Nat.mul_comm]; omega)
  have hcard := Finset.card_biUnion_le_card_mul (Finset.range m) (Vol.places i) 4
    fun bn _ => card_places_le bn
  rw [Finset.card_range] at hcard
  exact Nat.le_trans (Finset.card_le_card hsub) hcard

/-- The disk has a free block for every place without one on the way to the bytes. -/
def Enough (s : FsImage) (cur : Inum → Dinode) (i : Inum) (off n : Nat) : Prop :=
  (s.vol cur).Room (ways i off n)

/-- **Files are byte strings.** On a consistent volume, for every file that is no device: `writei`
inside the range of `bmap` and with enough free blocks replaces the bytes it is given, lengthens the
file if it ends behind its end, leaves every other file and every other inode on the disk alone, and
writes the inode back; `readi` fails behind the end or when the count wraps, and otherwise returns
the bytes up to the end; `filewrite` has the contents and the offset of one `writei` of all the
bytes. -/
theorem files_are_byte_strings (hV : (s.vol cur).Consistent) (htype : (cur i).type ≠ 0)
    (hdev : (cur i).type ≠ T_DEV) :
    (∀ (src : Nat → Byte) (off n : Word), off ≤ (cur i).size →
      off.toNat + n.toNat ≤ (NDIRECT + NTINDIRECT) * BSIZE → Enough s cur i off.toNat n.toNat →
      ∃ s' ip', s.writei i (cur i) src off n = some (.done n.toNat, s', ip') ∧
        (s'.vol (update cur i ip')).Consistent ∧
        (s'.vol (update cur i ip')).contents i =
          Vol.splice ((s.vol cur).contents i) off.toNat ((List.range n.toNat).map src) ∧
        ip'.size.toNat = max (cur i).size.toNat (off.toNat + n.toNat) ∧
        (∀ j, j ≠ i → (cur j).type ≠ 0 →
          (s'.vol (update cur i ip')).contents j = (s.vol cur).contents j) ∧
        (∃ size addrs, ip' = { cur i with size := size, addrs := addrs }) ∧
        (∀ j : Inum, j ≠ i → s'.dinode j = s.dinode j) ∧
        (s.dinode i = cur i → s'.dinode i = ip')) ∧
    (∀ off n : Word, s.readi (cur i) off n = some (
      if (cur i).size < off ∨ off + n < off then (.error, s, cur i)
      else (.done ((((s.vol cur).contents i).drop off.toNat).take n.toNat), s, cur i))) ∧
    (∀ (src : Nat → Byte) (off : Word) (n : Nat), off ≤ (cur i).size →
      off.toNat + n ≤ (NDIRECT + NTINDIRECT) * BSIZE → Enough s cur i off.toNat n →
      ∃ s₁ ip₁ s₂ ip₂, s.writei i (cur i) src off (.ofNat 32 n) = some (.done n, s₁, ip₁) ∧
        s.filewrite i (cur i) src off n = some (.done n, off + .ofNat 32 n, s₂, ip₂) ∧
        (∀ j, (cur j).type ≠ 0 → (s₂.vol (update cur i ip₂)).contents j =
          (s₁.vol (update cur i ip₁)).contents j) ∧
        (∃ addrs, ip₂ = { ip₁ with addrs := addrs }) ∧
        (∀ j : Inum, j ≠ i → s₂.dinode j = s.dinode j) ∧
        (s.dinode i = cur i → s₂.dinode i = ip₂)) := by
  have hcur : update cur i (cur i) = cur := update_eq_self i cur
  have hV' : (s.vol (update cur i (cur i))).Consistent := by rwa [hcur]
  refine ⟨?_, ?_, ?_⟩
  · intro src off n hoff hrange hroom
    have hr : (s.vol (update cur i (cur i))).Room (ways i off.toNat n.toNat) := by rwa [hcur]
    obtain ⟨s', ip', hw⟩ := writei_total (s := s) paths_ways hV' htype hdev (BitVec.le_def.1 hoff)
      hrange (fun o => places_subset_ways) hr
    obtain ⟨-, hst⟩ := writei_spec paths_ways hV' htype (fun o => places_subset_ways) hw
    refine ⟨s', ip', hw, hst.consistent, ?_, hst.size, ?_, hst.same, hst.disk, hst.through⟩
    · rw [hst.contents, hcur]
    · intro j hj ht
      rw [hst.others j hj ht, hcur]
  · intro off n
    exact readi_spec hV rfl rfl htype hdev off n
  · intro src off n hoff hrange hroom
    have hoff' := BitVec.le_def.1 hoff
    have hmax : (NDIRECT + NTINDIRECT) * BSIZE < 2 ^ 32 := by decide
    have hn : (BitVec.ofNat 32 n).toNat = n := by
      rw [BitVec.toNat_ofNat, Nat.mod_eq_of_lt (by omega)]
    have hr : (s.vol (update cur i (cur i))).Room (ways i off.toNat n) := by rwa [hcur]
    have hways : ∀ o, off.toNat ≤ o → o < off.toNat + (BitVec.ofNat 32 n).toNat →
        Vol.places i (o / BSIZE) ⊆ ways i off.toNat n := fun o h1 h2 =>
      places_subset_ways h1 (by omega)
    obtain ⟨s₁, ip₁, hw⟩ := writei_total (s := s) paths_ways hV' htype hdev hoff' (by omega) hways hr
    obtain ⟨-, hst⟩ := writei_spec paths_ways hV' htype hways hw
    obtain ⟨s₂, ip₂, hfile, hst'⟩ := fileLoop_spec (s := s) (n := n) (k := 0) paths_ways n
      (Nat.le_refl n) hV' htype hdev hoff' hrange (fun o => places_subset_ways) hr
    rw [hn] at hw hst
    refine ⟨s₁, ip₁, s₂, ip₂, hw, hfile, fun j ht => ?_, ?_, hst'.disk, hst'.through⟩
    · by_cases hj : j = i
      · subst hj
        rw [hst'.contents, hst.contents]
        simp only [Nat.zero_add, Nat.sub_zero]
      · rw [hst'.others j hj ht, hst.others j hj ht]
    · have hsize : ip₂.size = ip₁.size := by
        apply BitVec.eq_of_toNat_eq
        rw [hst'.size, hst.size, Nat.sub_zero]
      obtain ⟨size₁, addrs₁, rfl⟩ := hst.same
      obtain ⟨size₂, addrs₂, rfl⟩ := hst'.same
      exact ⟨addrs₂, by rw [show size₂ = size₁ from hsize]⟩

/-- A disk on which nothing is stored but `used` blocks of metadata. -/
def empty (sb : Superblock) (used : Nat) : FsImage where
  blk b := if b = sb.bmapstart then bitmap used else Bytes.zero

theorem empty_bit (sb : Superblock) {used : Nat} (h : used ≤ BPB) :
    (empty sb used).bit b sb = decide (b < used) := by
  refine bit_of_bitmap h (if_pos rfl) fun hc => ?_
  exact if_neg (Nat.ne_of_gt hc)

def blank : FsImage := empty mkfs nmeta

/-- Inode 1 is an empty file. -/
def oneFile (i : Inum) : Dinode := if i = ⟨1, by decide⟩ then { type := T_FILE, nlink := 1 } else {}

theorem blank_bit : blank.bit b = decide (b < nmeta) := empty_bit mkfs (by decide)

theorem blank_dinode : blank.dinode i = {} := by
  have hblk : blank.blk (IBLOCK i) = Bytes.zero :=
    if_neg (Nat.ne_of_lt (IBLOCK_range i.isLt).2)
  unfold dinode
  rw [hblk, Block.dinode_zero]

theorem blank_sound (h : ∀ i k, (cur i).addrs k = 0) : (blank.vol cur).Sound := by
  apply Vol.sound_of_empty
  · intro r
    show (if (cur r.1).type = 0 then 0 else ((cur r.1).addrs r.2).toNat) = 0
    rw [h]
    split <;> rfl
  · intro b hb
    rw [used_vol hb, blank_bit, decide_eq_true_eq]

/-- All files are empty. -/
theorem blank_consistent (h : ∀ i, (cur i).size = 0 ∧ ∀ k, (cur i).addrs k = 0) :
    (blank.vol cur).Consistent := by
  refine ⟨blank_sound fun i => (h i).2, ?_⟩
  intro i _ bn hbn
  rw [show (blank.vol cur).cur i = cur i from rfl, (h i).1] at hbn
  exact absurd hbn (Nat.not_lt_zero _)

theorem blank_free : FSSIZE - nmeta ≤ (blank.vol cur).free.card := by
  rw [free_vol]
  exact free_of_bits fun _ => blank_bit

theorem blank_room {S : Finset Place} (h : S.card ≤ FSSIZE - nmeta) : (blank.vol cur).Room S :=
  ((Finset.card_le_card (Finset.filter_subset _ _)).trans h).trans blank_free

theorem oneFile_consistent : (blank.vol oneFile).Consistent := by
  apply blank_consistent
  intro i
  unfold oneFile
  split <;> exact ⟨rfl, fun _ => rfl⟩

/-- Two bytes are written to the empty file of a disk that has only its inode. -/
theorem files_are_byte_strings_two : ∃ s : FsImage, ((s.vol oneFile).Consistent ∧
    s.dinode 1 = oneFile ⟨1, by decide⟩) ∧
    ∃ s' ip', s.writei 1 (oneFile ⟨1, by decide⟩) (fun k => .ofNat 8 (k + 7)) 0 2 =
        some (.done 2, s', ip') ∧
      (s'.vol (update oneFile ⟨1, by decide⟩ ip')).contents ⟨1, by decide⟩ = [7, 8] ∧
      s'.dinode 1 = ip' ∧ s'.dinode 2 = s.dinode 2 := by
  let s := blank.iupdate 1 (oneFile ⟨1, by decide⟩)
  have hvol : s.vol oneFile = blank.vol oneFile := vol_iupdate (i := ⟨1, by decide⟩)
  have hV : (s.vol oneFile).Consistent := hvol ▸ oneFile_consistent
  have hroom : Enough s oneFile ⟨1, by decide⟩ 0 2 := by
    unfold Enough
    rw [hvol]
    exact blank_room (by decide)
  obtain ⟨s', ip', hw, -, hc, -, -, -, hdisk, hthrough⟩ := (files_are_byte_strings (i := ⟨1, by decide⟩)
    hV (by decide) (by decide)).1 (fun k => .ofNat 8 (k + 7)) 0 2 (by decide) (by decide) hroom
  exact ⟨s, ⟨hV, dinode_iupdate_self⟩, s', ip', hw, hc, hthrough dinode_iupdate_self,
    hdisk ⟨2, by decide⟩ (by decide)⟩

end FsImage

end Xv6
