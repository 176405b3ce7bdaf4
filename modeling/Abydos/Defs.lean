import Mathlib.Logic.Basic

namespace Abydos

def K_CONFIG_MAX_PROCESSORS : Nat := 64
def K_CONFIG_STACK_SIZE_N : Nat := 13

def K_OK : Int := 0
def K_EFAIL : Int := -1
def K_ENOTSUPP : Int := -2
def K_EINVAL : Int := -3
def K_EINVALID_ADDR : Int := -5
def K_EALREADY : Int := -6
def K_ENODEV : Int := -1000
def K_ENOSPC : Int := -1005
def K_ENOMEM : Int := -1006
def K_ENOENT : Int := -1008

inductive Stage
  | K_BEFORE_BOOT | K_BOOT | K_BOOT_PERIP | K_BOOT_HARTS | K_MULTICORE | K_CLEARUP
  deriving DecidableEq, Repr

end Abydos
