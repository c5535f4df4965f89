import Ndp.FaultMemory

/-! The C++ fault handler answers a fault by copying one page to the page of the faulting address,
which it finds by masking. Numbers of pages are 32 bits wide, sizes and addresses 64. -/
namespace Ndp.Cpp

/-- `PAGE_ALIGN`. -/
def pageAlign (x size : UInt64) : UInt64 := x &&& ~~~(size - 1)

structure MappedBuf where
  ptr : UInt64
  size : UInt64
  pageSize : UInt64
  deriving DecidableEq, Repr

/-- What `mmap` answers is not looked at. -/
def MappedBuf.createFromNumPages (mmap : UInt64 → UInt64) (numPages : UInt32) (pageSize : UInt64) : MappedBuf :=
  let memSize := numPages.toUInt64 * pageSize
  ⟨mmap memSize, memSize, pageSize⟩

structure FaultMsg where
  pageSize : UInt64
  faultingAddress : UInt64
  deriving DecidableEq, Repr

def FaultMsg.faultingPageAddress (msg : FaultMsg) : UInt64 := pageAlign msg.faultingAddress msg.pageSize

/-- `fault_registration::respond_with`, down to the command; its mode lets the thread go on. -/
def respondWith (dest : FaultMsg) (src : MappedBuf) : UffdCopy :=
  ⟨src.ptr.toNat, dest.faultingPageAddress, src.size, true⟩

def handlerPage (mmap : UInt64 → UInt64) (pageSize : UInt64) : MappedBuf := .createFromNumPages mmap 1 pageSize

def MappedBuf.region (buf : MappedBuf) : MappedBufMut := ⟨buf.ptr.toNat, buf.size, buf.pageSize⟩

def MappedBuf.pageOf (buf : MappedBuf) (addr : UInt64) : Nat := (addr.toNat - buf.ptr.toNat) / buf.pageSize.toNat

theorem MappedBuf.createFromNumPages_size (mmap : UInt64 → UInt64) (numPages : UInt32) {pageSize : UInt64} {shift : Nat}
    (power : pageSize.toNat = 2 ^ shift) :
    ∃ pages, (createFromNumPages mmap numPages pageSize).size.toNat = pages * 2 ^ shift := by
  have small : 2 ^ shift < 2 ^ 64 := power ▸ pageSize.toNat_lt
  have whole : 2 ^ shift ∣ 2 ^ 64 := Nat.pow_dvd_pow 2 ((Nat.pow_lt_pow_iff_right (by decide)).mp small).le
  have pages : 2 ^ shift ∣ (createFromNumPages mmap numPages pageSize).size.toNat := by
    rw [createFromNumPages,UInt64.toNat_mul,power]
    exact (Nat.dvd_mod_iff whole).mpr (Nat.dvd_mul_left _ _)
  obtain ⟨count,size⟩ := pages
  exact ⟨count,by rw [size,Nat.mul_comm]⟩

theorem handlerPage_size (mmap : UInt64 → UInt64) (pageSize : UInt64) : (handlerPage mmap pageSize).size = pageSize :=
  UInt64.one_mul pageSize

theorem respondWith_dst {pageSize : UInt64} {shift : Nat} (power : pageSize.toNat = 2 ^ shift) (addr : UInt64)
    (page : MappedBuf) :
    (respondWith ⟨pageSize, addr⟩ page).dst.toNat = addr.toNat / 2 ^ shift * 2 ^ shift :=
  mask_offset power addr

/-- A fault anywhere in the invoke buffer is resolved by a copy of one page inside it, to the same place for
two addresses exactly if they lie in the same page. -/
theorem fault_copies_one_page (mmap mmapPage : UInt64 → UInt64) (numPages : UInt32) (pageSize : UInt64) (shift : Nat)
    (power : pageSize.toNat = 2 ^ shift) (buf page : MappedBuf)
    (made : buf = .createFromNumPages mmap numPages pageSize) (own : page = handlerPage mmapPage pageSize)
    (boundary : pageSize.toNat ∣ buf.ptr.toNat) (addr : UInt64) (covered : buf.region.Covers addr) :
    (respondWith ⟨pageSize, addr⟩ page).len = pageSize ∧
      (respondWith ⟨pageSize, addr⟩ page).Resolves pageSize buf.region addr ∧
      ∀ other, buf.region.Covers other →
        ((respondWith ⟨pageSize, other⟩ page).dst = (respondWith ⟨pageSize, addr⟩ page).dst ↔
          buf.pageOf other = buf.pageOf addr) := by
  subst made own
  have positive : 0 < 2 ^ shift := Nat.two_pow_pos shift
  obtain ⟨pages,whole⟩ := MappedBuf.createFromNumPages_size mmap numPages power
  have one : (respondWith ⟨pageSize, addr⟩ (handlerPage mmapPage pageSize)).len.toNat = 1 * 2 ^ shift := by
    rw [respondWith,handlerPage_size,power,Nat.one_mul]
  refine ⟨handlerPage_size mmapPage pageSize,?_,?_⟩
  · rw [UffdCopy.resolves_iff power whole (respondWith_dst power addr _) one boundary covered]
    refine ⟨Nat.one_pos,(Nat.div_lt_iff_lt_mul positive).mpr ?_⟩
    obtain ⟨low,high⟩ := covered
    rw [← whole]
    exact Nat.sub_lt_left_of_lt_add low high
  · intro other covered'
    have unit : (MappedBuf.createFromNumPages mmap numPages pageSize).pageSize.toNat = 2 ^ shift := power
    rw [power] at boundary
    obtain ⟨before,number⟩ := page_of_buffer positive boundary covered.1
    obtain ⟨before',number'⟩ := page_of_buffer positive boundary covered'.1
    rw [← UInt64.toNat_inj,respondWith_dst power,respondWith_dst power,Nat.mul_left_inj positive.ne',MappedBuf.pageOf,
      MappedBuf.pageOf,unit]
    omega

/-- Three pages of four bytes from 100 on. -/
theorem fault_copies_one_page_of_three :
    (respondWith ⟨4, 107⟩ (handlerPage (fun _ => 400) 4)).Resolves 4 ⟨100, 12, 4⟩ 107 :=
  (fault_copies_one_page (fun _ => 100) (fun _ => 400) 3 4 2 rfl ⟨100, 12, 4⟩ ⟨400, 4, 4⟩ rfl rfl (by decide) 107
    ⟨by decide,by decide⟩).2.1

end Ndp.Cpp
