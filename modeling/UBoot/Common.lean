import Mathlib.Data.List.Basic

/-!
# Error numbers and shared types

The numbers of `errno.h` that the modelled functions return, and the types that more
than one part of the code uses.
-/

namespace UBoot

def EPERM : Int := 1

def eio : Int := 5

def E2BIG : Int := 7

def ENOMEM : Int := 12

def EEXIST : Int := 17

def EINVAL : Int := 22

def EFBIG : Int := 27

def ENOSPC : Int := 28

def ENOSYS : Int := 38

def EUCLEAN : Int := 117

abbrev EfiGuid := { bytes : List UInt8 // bytes.length = 16 }

end UBoot
