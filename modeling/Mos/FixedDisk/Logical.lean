import Mos.FixedDisk.Cache
import Mos.Lib.Cover

/-!
# The logical content of a cached disk

The device overlaid with the cached lines is a flat array of sectors (`logical`).  `LinesOk` is what keeps this
overlay stable when lines come and go: there is one line for each head, and a clean line holds what the device holds.
-/

namespace Mos.FixedDisk

open Lib
open List hiding lookup lookup_append lookup_eq_none_iff

variable {α : Type*} {d : Disk}

def covers (d : Disk) (l : Line α) (s : Nat) : Prop := l.sector ≤ s ∧ s < l.sector + d.lineSize l.sector

instance (l : Line α) (s : Nat) : Decidable (covers d l s) := inferInstanceAs (Decidable (_ ∧ _))

def value (l : Line α) (s : Nat) : α := l.data (s - l.sector)

def logical (d : Disk) (st : State α) (s : Nat) : α := (lookup (covers d) value st.lines s).getD (st.device s)

/-- One line for each head, and the heads are multiples of the sectors per line. -/
structure HeadsOk (d : Disk) (lines : List (Line α)) : Prop where
  nodup : (lines.map Line.sector).Nodup
  aligned : ∀ l ∈ lines, d.span ∣ l.sector

/-- A clean line holds what the device holds. -/
def Clean (d : Disk) (device : Nat → α) (l : Line α) : Prop :=
  l.dirty = false → ∀ s, covers d l s → value l s = device s

structure CacheOk (d : Disk) (st : State α) : Prop where
  heads : HeadsOk d st.lines
  clean : ∀ l ∈ st.lines, Clean d st.device l

theorem lt_lineSize {d : Disk} {head i : Nat} : i < d.lineSize head ↔ i < d.span ∧ head + i < d.sectors := by
  unfold Disk.lineSize
  split_ifs <;> omega

variable {l : Line α} {s : Nat} {lines lines' : List (Line α)}

private theorem covers_iff (h : d.span ∣ l.sector) : covers d l s ↔ s - s % d.span = l.sector ∧ s < d.sectors := by
  have hpos := d.span_pos
  obtain ⟨k, hk⟩ := h
  have hdm := Nat.div_add_mod s d.span
  have hlt := Nat.mod_lt s hpos
  unfold covers
  constructor
  · rintro ⟨h1, h2⟩
    have h3 := lt_lineSize.1 (show s - l.sector < d.lineSize l.sector by omega)
    refine ⟨?_, by omega⟩
    have hdiv : s / d.span = k := by
      rw [Nat.div_eq_iff hpos]
      rw [hk] at h1 h3
      rw [Nat.mul_comm k]
      constructor <;> omega
    rw [hk, ← hdiv]
    omega
  · rintro ⟨h1, h2⟩
    have h3 := lt_lineSize.2 (show s - l.sector < d.span ∧ l.sector + (s - l.sector) < d.sectors by omega)
    omega

theorem HeadsOk.apart (h : HeadsOk d lines) : lines.Pairwise (Apart (covers d)) := by
  refine (pairwise_map.1 h.nodup).imp_of_mem fun {l m} hl hm hne s hls hms => ?_
  rw [covers_iff (h.aligned l hl)] at hls
  rw [covers_iff (h.aligned m hm)] at hms
  exact hne (hls.1.symm.trans hms.1)

theorem HeadsOk.perm (h : HeadsOk d lines) (hp : lines.Perm lines') : HeadsOk d lines' :=
  ⟨(hp.map Line.sector).nodup_iff.1 h.nodup, fun l hl => h.aligned l (hp.mem_iff.2 hl)⟩

theorem HeadsOk.tail (h : HeadsOk d (l :: lines)) : HeadsOk d lines :=
  ⟨(nodup_cons.1 h.nodup).2, fun m hm => h.aligned m (mem_cons_of_mem _ hm)⟩

theorem HeadsOk.replace {l' : Line α} (h : HeadsOk d (l :: lines)) (he : l'.sector = l.sector) :
    HeadsOk d (l' :: lines) := by
  refine ⟨?_, forall_mem_cons.2 ⟨he ▸ h.aligned l mem_cons_self, h.tail.aligned⟩⟩
  rw [map_cons, he]
  exact h.nodup

theorem HeadsOk.cons (h : HeadsOk d lines) (ha : d.span ∣ l.sector)
    (hne : ∀ m ∈ lines, m.sector ≠ l.sector) : HeadsOk d (l :: lines) := by
  refine ⟨nodup_cons.2 ⟨fun hm => ?_, h.nodup⟩, forall_mem_cons.2 ⟨ha, h.aligned⟩⟩
  obtain ⟨m, hm, he⟩ := mem_map.1 hm
  exact hne m hm he

theorem logical_perm (h : HeadsOk d lines) (hp : lines.Perm lines') (device : Nat → α)
    (s : Nat) : logical d ⟨lines, device⟩ s = logical d ⟨lines', device⟩ s := by
  rw [logical, logical, lookup_perm hp h.apart]

theorem logical_cons (h : HeadsOk d (l :: lines)) (device : Nat → α) (s : Nat) :
    logical d ⟨l :: lines, device⟩ s = if covers d l s then value l s else logical d ⟨lines, device⟩ s := by
  unfold logical
  by_cases hs : covers d l s
  · rw [if_pos hs, lookup_of_mem h.apart mem_cons_self hs, Option.getD_some]
  have hnil : lookup (covers d) value [l] s = none := lookup_eq_none_iff.2 (by simpa using hs)
  have happ : lookup (covers d) value (l :: lines) s = lookup (covers d) value lines s := by
    rw [← singleton_append, lookup_append, hnil, Option.none_or]
  rw [if_neg hs]
  exact congrArg (fun o => o.getD (device s)) happ

theorem logical_device {device device' : Nat → α} (h : (∀ l ∈ lines, ¬covers d l s) → device' s = device s) :
    logical d ⟨lines, device'⟩ s = logical d ⟨lines, device⟩ s := by
  unfold logical
  cases hl : lookup (covers d) value lines s with
  | some v => rfl
  | none => exact h (lookup_eq_none_iff.1 hl)

theorem logical_drop {device : Nat → α} (h : HeadsOk d (l :: lines))
    (hc : ∀ s, covers d l s → value l s = device s) (s : Nat) :
    logical d ⟨l :: lines, device⟩ s = logical d ⟨lines, device⟩ s := by
  rw [logical_cons h]
  split_ifs with hs
  · have hnone : lookup (covers d) value lines s = none :=
      lookup_eq_none_iff.2 fun m hm => (pairwise_cons.1 h.apart).1 m hm s hs
    rw [hc s hs, logical]
    rw [hnone, Option.getD_none]
  · rfl

end Mos.FixedDisk
